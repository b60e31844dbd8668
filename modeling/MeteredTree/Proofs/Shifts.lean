import MeteredTree.Proofs.ValueOnly

/-! Shifts as scalings by powers of two. The arithmetic shift scales the signed
value of its argument and the logical shift the unsigned one, which it puts
together from the signed value and the number of bytes. -/

namespace MeteredTree

open Bytes

namespace Integer

/-- `v` times two to the `k`; a negative power divides and rounds down. -/
def scaled (v k : Int) : Int :=
  if 0 ≤ k then v * Nat.pow 2 k.toNat else v.fdiv (Nat.pow 2 (-k).toNat)

theorem shift_eq_scaled (v k : Int) : shift v k = scaled v k := by
  cases k with
  | ofNat n => rfl
  | negSucc n => exact (Int.fdiv_eq_ediv_of_nonneg v (Int.natCast_nonneg _)).symm

theorem scaled_nonneg {v : Int} (hv : 0 ≤ v) (k : Int) : 0 ≤ scaled v k := by
  rw [scaled]
  split
  · exact Int.mul_nonneg hv (Int.natCast_nonneg _)
  · exact Int.fdiv_nonneg hv (Int.natCast_nonneg _)

theorem scaled_scaled_neg (v : Int) {k : Int} (hk : 0 ≤ k) : scaled (scaled v k) (-k) = v := by
  have hpow : ((Nat.pow 2 k.toNat : Nat) : Int) ≠ 0 :=
    Int.natCast_ne_zero.mpr (Nat.ne_of_gt (Nat.two_pow_pos _))
  by_cases hzero : k = 0
  · simp [scaled, hzero]
  · have hneg : ¬ 0 ≤ -k := by omega
    rw [scaled, if_neg hneg, scaled, if_pos hk, Int.neg_neg]
    exact Int.mul_fdiv_cancel v hpow

end Integer

theorem Operand.unsigned_ofBytes (b : Bytes) : (Operand.ofBytes b).unsigned = toNat b :=
  (Integer.toNat_eq_ite b).symm

theorem Integer.toNat_eq_ofBytes {b : Bytes} (h : 0 ≤ ofBytes b) : (toNat b : Int) = ofBytes b := by
  rw [toNat_eq_ite]
  exact if_neg (Int.not_lt_of_ge h)

namespace Operator

open Integer

variable {args : Node} {b s : Bytes}

/-- A shift is given in at most four bytes and goes no further than it may. -/
def IsShift (s : Bytes) : Prop :=
  s.length ≤ 4 ∧ (ofBytes s).natAbs ≤ 65535

theorem IsShift.toBytes_neg (hs : IsShift s) : IsShift (toBytes (-ofBytes s)) := by
  have hle := hs.2
  have hroom : HasRoom 4 (-ofBytes s) := by
    have hcap : capacity 4 = 4294967296 := by decide
    rw [HasRoom, hcap]
    omega
  refine ⟨hroom.length_toBytes_le, ?_⟩
  rw [ofBytes_toBytes, Int.natAbs_neg]
  exact hle

theorem shiftArguments_of_atoms (p : Primitive) (hargs : args.items = [.atom b, .atom s])
    (hs : IsShift s) : shiftArguments p args = .ok (.ofBytes b, ofBytes s) := by
  have hwidth : ¬ 4 < s.length := Nat.not_lt_of_le hs.1
  have hrange : -maxShift ≤ ofBytes s ∧ ofBytes s ≤ maxShift := by
    have hle := hs.2
    rw [maxShift]
    omega
  rw [shiftArguments, Arguments.twoOperands_of_atoms hargs]
  exact (if_neg hwidth).trans (if_pos hrange)

theorem isShift_of_ok {p : Primitive} (hargs : args.items = [.atom b, .atom s])
    {x : Operand × Int} (h : shiftArguments p args = .ok x) : IsShift s := by
  rw [shiftArguments, Arguments.twoOperands_of_atoms hargs] at h
  change (if 4 < s.length then _ else if _ then _ else _) = _ at h
  split at h
  · cases h
  · next hwidth =>
    split at h
    · next hrange =>
      simp only [Operand.ofBytes, maxShift] at hrange
      exact ⟨by omega, by omega⟩
    · cases h

theorem ash_of_atoms (hargs : args.items = [.atom b, .atom s]) (hs : IsShift s) :
    ash args =
      .ok (shifted Price.arithmeticShift b.length (scaled (ofBytes b) (ofBytes s))) := by
  rw [ash, shiftArguments_of_atoms .ash hargs hs, ← shift_eq_scaled]
  rfl

theorem lsh_of_atoms (hargs : args.items = [.atom b, .atom s]) (hs : IsShift s) :
    lsh args = .ok (shifted Price.logicalShift b.length (scaled (toNat b) (ofBytes s))) := by
  rw [lsh, shiftArguments_of_atoms .lsh hargs hs, ← shift_eq_scaled, ← Operand.unsigned_ofBytes]
  rfl

theorem exists_ok_shift_iff {p : Primitive} {f : Operand × Int → Response}
    (hf : ∀ x, ∃ r, f x = .ok r) (hargs : args.items = [.atom b, .atom s]) :
    (∃ r, (shiftArguments p args >>= f) = .ok r) ↔ IsShift s := by
  constructor
  · rintro ⟨r, hr⟩
    obtain ⟨x, hx, -⟩ := bind_eq_ok.mp hr
    exact isShift_of_ok hargs hx
  · intro hs
    rw [shiftArguments_of_atoms p hargs hs]
    exact hf _

theorem arithmeticShift_plain (n : Nat) :
    Price.arithmeticShift.plain 0 n = Price.logicalShift.plain 0 n + 319 := by
  simp only [Tariff.plain, Price.arithmeticShift, Price.logicalShift]
  grind

theorem toNat_shifted_cost {t : Tariff} (ht : t.perByte = 3) (hbase : t.base.toNat ≤ 1000)
    {v k : Int} {n : Nat} (hv : v.natAbs ≤ capacity n) (hk : k ≤ maxShift)
    (hn : n < 0x800000000000000) :
    (shifted t n (scaled v k)).cost.toNat =
      t.base.toNat + 3 * (n + limbs (scaled v k)) + 10 * (toBytes (scaled v k)).length := by
  -- what comes out is little longer than what went in, so the cost does not saturate
  have hsize : (scaled v k).natAbs ≤ capacity (n + 8192) := by
    rw [← shift_eq_scaled]
    exact natAbs_shift_le hv hk
  have hlimbs := limbs_le hsize
  have hlength := length_toBytes_le hsize
  have hthree : (3 : UInt64).toNat = 3 := rfl
  have hten : Price.allocatedByte.toNat = 10 := rfl
  simp only [shifted, Reduction.newInteger, Reduction.newAtom, Tariff.plain, Price.allocation,
    Cost.satAdd, Cost.satMul, Cost.toNat_clamp, UInt64.toNat_add, UInt64.toNat_mul,
    UInt64.toNat_ofNat', ht, hthree, hten]
  omega

theorem shifted_cost_diff (n : Nat) (v : Int) :
    ∃ c surcharge,
      (shifted Price.arithmeticShift n v).cost = Cost.satAdd (c + 319) surcharge ∧
      (shifted Price.logicalShift n v).cost = Cost.satAdd c surcharge := by
  refine ⟨_, _, ?_, rfl⟩
  rw [← arithmeticShift_plain]
  rfl

theorem toNat_shifted_cost_diff (hs : IsShift s) (hb : b.length < 0x800000000000000) :
    (shifted Price.arithmeticShift b.length (scaled (ofBytes b) (ofBytes s))).cost.toNat =
      (shifted Price.logicalShift b.length (scaled (ofBytes b) (ofBytes s))).cost.toNat + 319 := by
  have hvalue := natAbs_ofBytes_le b
  have hk : ofBytes s ≤ maxShift := by
    have hle := hs.2
    rw [maxShift]
    omega
  have hash : Price.arithmeticShift.base.toNat = 596 := rfl
  have hlsh : Price.logicalShift.base.toNat = 277 := rfl
  rw [toNat_shifted_cost rfl (by omega) hvalue hk hb,
    toNat_shifted_cost rfl (by omega) hvalue hk hb]
  omega

/-- Both shifts succeed for the same shifts. The arithmetic one scales the
signed value, and undoes itself; the logical one scales the unsigned value, so
it sees the number of bytes only of a negative number. -/
theorem shifts_scale_by_powers (hargs : args.items = [.atom b, .atom s]) :
    ((∃ r, ash args = .ok r) ↔ IsShift s) ∧ ((∃ r, lsh args = .ok r) ↔ IsShift s) ∧
    ∀ r r', ash args = .ok r → lsh args = .ok r' →
      r.value = .atom (toBytes (scaled (ofBytes b) (ofBytes s))) ∧
      r'.value = .atom (toBytes (scaled (toNat b) (ofBytes s))) ∧
      0 ≤ scaled (toNat b) (ofBytes s) ∧
      (0 ≤ ofBytes b →
        (∀ args' b', args'.items = [.atom b', .atom s] → ofBytes b' = ofBytes b →
          seen (lsh args') = .ok r'.value) ∧
        r.value = r'.value ∧
        (∃ c surcharge, r.cost = Cost.satAdd (c + 319) surcharge ∧
          r'.cost = Cost.satAdd c surcharge) ∧
        (b.length < 0x800000000000000 → r.cost.toNat = r'.cost.toNat + 319)) ∧
      (0 ≤ ofBytes s → IsShift (toBytes (-ofBytes s)) ∧
        ∀ args' s', args'.items = [r.value, .atom s'] → s'.length ≤ 4 → ofBytes s' = -ofBytes s →
          seen (ash args') = .ok (.atom (toBytes (ofBytes b)))) := by
  have hash : (∃ r, ash args = .ok r) ↔ IsShift s :=
    exists_ok_shift_iff (fun _ => ⟨_, rfl⟩) hargs
  have hlsh : (∃ r, lsh args = .ok r) ↔ IsShift s :=
    exists_ok_shift_iff (fun _ => ⟨_, rfl⟩) hargs
  refine ⟨hash, hlsh, ?_⟩
  intro r r' hr hr'
  have hs : IsShift s := hash.mp ⟨r, hr⟩
  obtain rfl := Except.ok.inj ((ash_of_atoms hargs hs).symm.trans hr)
  obtain rfl := Except.ok.inj ((lsh_of_atoms hargs hs).symm.trans hr')
  refine ⟨rfl, rfl, scaled_nonneg (Int.natCast_nonneg _) _, ?_, ?_⟩
  · intro hb
    have hunsigned := toNat_eq_ofBytes hb
    rw [hunsigned]
    refine ⟨?_, rfl, shifted_cost_diff _ _, toNat_shifted_cost_diff hs⟩
    intro args' b' hargs' hvalue
    have hunsigned' := toNat_eq_ofBytes (hvalue ▸ hb)
    rw [lsh_of_atoms hargs' hs, hunsigned', hvalue]
    rfl
  · intro hk
    refine ⟨hs.toBytes_neg, ?_⟩
    intro args' s' hargs' hlength hvalue
    have hs' : IsShift s' := ⟨hlength, by rw [hvalue, Int.natAbs_neg]; exact hs.2⟩
    rw [ash_of_atoms hargs' hs', ofBytes_toBytes, hvalue, scaled_scaled_neg _ hk]
    rfl

/-- Minus one in a byte, shifted left by one place: twice its signed value, twice
its unsigned value, and back. -/
theorem shifts_scale_by_powers_one :
    let args := Node.ofList [.atom [0xff], .atom [0x01]]
    let back := Node.ofList [.atom [0xfe], .atom [0xff]]
    ash args = .ok ⟨612, .atom [0xfe]⟩ ∧ lsh args = .ok ⟨306, .atom [0x01, 0xfe]⟩ ∧
    seen (ash back) = .ok (.atom (toBytes (ofBytes [0xff]))) := by
  intro args back
  have hargs : args.items = [.atom [0xff], .atom [0x01]] := rfl
  have hash : ash args = .ok ⟨612, .atom [0xfe]⟩ := by decide +kernel
  have hlsh : lsh args = .ok ⟨306, .atom [0x01, 0xfe]⟩ := by decide +kernel
  obtain ⟨-, -, hlaws⟩ := shifts_scale_by_powers hargs
  obtain ⟨-, -, -, -, hback⟩ := hlaws _ _ hash hlsh
  have hone : ofBytes [0x01] = 1 ∧ ofBytes [0xff] = -1 := by decide +kernel
  obtain ⟨-, hundo⟩ := hback (by rw [hone.1]; decide)
  exact ⟨hash, hlsh, hundo back [0xff] rfl (by decide) (by rw [hone.1, hone.2])⟩

end Operator

end MeteredTree

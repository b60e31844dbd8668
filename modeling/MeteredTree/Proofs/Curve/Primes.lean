import Mathlib.FieldTheory.Finite.Basic
import Mathlib.Tactic.NormNum.Prime
import MeteredTree.Curve.Point

/-! The characteristic of the field and the order of the subgroup are prime.
Pocklington's test takes the primes of a large enough part of `n - 1` and a
number whose powers show that every prime factor of `n` exceeds that part. -/

namespace MeteredTree.Curve

/-- `a ^ e % m` for an exponent of so many bits, by squaring. -/
def powMod (m : Nat) : Nat → Nat → Nat → Nat
  | 0, _, _ => 1
  | bits + 1, a, e =>
    let h := powMod m bits (a * a % m) (e / 2)
    if e % 2 = 1 then a * h % m else h

theorem powMod_cast {m n : Nat} (hdvd : n ∣ m) {bits e : Nat} (he : e < 2 ^ bits) (a : Nat) :
    (powMod m bits a e : ZMod n) = (a : ZMod n) ^ e := by
  have hmod (k : Nat) : ((k % m : Nat) : ZMod n) = k := by
    rw [ZMod.natCast_eq_natCast_iff']
    exact Nat.mod_mod_of_dvd k hdvd
  induction bits generalizing a e with
  | zero =>
    obtain rfl : e = 0 := by simpa using he
    simp [powMod]
  | succ bits ih =>
    have hhalf := ih (e := e / 2) (by rw [pow_succ] at he; omega) (a * a % m)
    have hsquare : (a : ZMod n) ^ (2 * (e / 2)) = ((a * a % m : Nat) : ZMod n) ^ (e / 2) := by
      rw [hmod, pow_mul, Nat.cast_mul, sq]
    rw [powMod]
    by_cases hodd : e % 2 = 1
    · rw [if_pos hodd, hmod, Nat.cast_mul, hhalf, ← hsquare, ← pow_succ', ← hodd, Nat.div_add_mod]
    · rw [if_neg hodd, hhalf, ← hsquare]
      congr 1
      omega

/-- Pocklington's test: the factors make up a large part of `n - 1`, and the
powers of `a` show that this part divides the order of `a` modulo every prime
factor of `n`. Adding `n - 1` stands for taking one away. -/
structure Passes (n a bits : Nat) (factors : List Nat) : Prop where
  one_lt : 1 < n
  fits : n < 2 ^ bits
  large : n < factors.prod * factors.prod
  divides : factors.prod ∣ n - 1
  full : powMod n bits a (n - 1) = 1
  part : ∀ q ∈ factors, (powMod n bits a ((n - 1) / q) + (n - 1)).Coprime n

instance (n a bits : Nat) (factors : List Nat) : Decidable (Passes n a bits factors) :=
  decidable_of_iff (1 < n ∧ n < 2 ^ bits ∧ n < factors.prod * factors.prod ∧
      factors.prod ∣ n - 1 ∧ powMod n bits a (n - 1) = 1 ∧
      ∀ q ∈ factors, (powMod n bits a ((n - 1) / q) + (n - 1)).Coprime n)
    ⟨fun ⟨h₁, h₂, h₃, h₄, h₅, h₆⟩ => ⟨h₁, h₂, h₃, h₄, h₅, h₆⟩,
      fun h => ⟨h.one_lt, h.fits, h.large, h.divides, h.full, h.part⟩⟩

namespace Passes

variable {n a bits : Nat} {factors : List Nat}

theorem pow_part_ne_one (h : Passes n a bits factors) {p : Nat} (hp : p.Prime) (hdvd : p ∣ n)
    {q : Nat} (hq : q ∈ factors) : (a : ZMod p) ^ ((n - 1) / q) ≠ 1 := by
  intro hone
  have hlt : (n - 1) / q < 2 ^ bits :=
    (Nat.div_le_self _ _).trans_lt ((Nat.sub_le _ _).trans_lt h.fits)
  have hcast : ((powMod n bits a ((n - 1) / q) + (n - 1) : Nat) : ZMod p) = (n : Nat) := by
    have hpos := h.one_lt
    rw [Nat.cast_add, powMod_cast hdvd hlt, hone, ← Nat.cast_one, ← Nat.cast_add]
    congr 1
    omega
  rw [(ZMod.natCast_eq_zero_iff n p).mpr hdvd, ZMod.natCast_eq_zero_iff] at hcast
  exact hp.ne_one (Nat.eq_one_of_dvd_coprimes (h.part q hq) hcast hdvd)

/-- Every prime factor exceeds the part of `n - 1` that is factored. -/
theorem lt_of_dvd (h : Passes n a bits factors) (hprime : ∀ q ∈ factors, q.Prime) {p : Nat}
    (hp : p.Prime) (hdvd : p ∣ n) : factors.prod < p := by
  have hfact : Fact p.Prime := ⟨hp⟩
  obtain ⟨k, hk⟩ := h.divides
  have hpos : 0 < factors.prod := List.prod_pos fun q hq => (hprime q hq).pos
  have hlt : n - 1 < 2 ^ bits := (Nat.sub_le _ _).trans_lt h.fits
  have hfull : ((a : ZMod p) ^ k) ^ factors.prod = 1 := by
    rw [← pow_mul, mul_comm, ← hk, ← powMod_cast hdvd hlt, h.full, Nat.cast_one]
  have horder : orderOf ((a : ZMod p) ^ k) = factors.prod := by
    apply orderOf_eq_of_pow_and_pow_div_prime hpos hfull
    intro q hq hqdvd
    obtain ⟨f, hf, hqf⟩ := (Prime.dvd_prod_iff hq.prime).mp hqdvd
    obtain rfl : q = f := (Nat.prime_dvd_prime_iff_eq hq (hprime f hf)).mp hqf
    have hpart := h.pow_part_ne_one hp hdvd hf
    rwa [hk, Nat.mul_comm, Nat.mul_div_assoc _ hqdvd, pow_mul] at hpart
  have hne : (a : ZMod p) ^ k ≠ 0 := by
    intro hzero
    rw [hzero, zero_pow hpos.ne'] at hfull
    exact zero_ne_one hfull
  have hle := Nat.le_of_dvd (Nat.sub_pos_of_lt hp.one_lt) (ZMod.orderOf_dvd_card_sub_one hne)
  have hone := hp.one_lt
  omega

theorem prime (h : Passes n a bits factors) (hprime : ∀ q ∈ factors, q.Prime) : n.Prime := by
  by_contra hcomposite
  have hone := h.one_lt
  have hsq := Nat.minFac_sq_le_self (by omega) hcomposite
  have hlt := h.lt_of_dvd hprime (Nat.minFac_prime (by omega)) (Nat.minFac_dvd n)
  have hmul := Nat.mul_lt_mul'' hlt hlt
  have hlarge := h.large
  rw [sq] at hsq
  omega

theorem prime_of_single {q : Nat} (h : Passes n a bits [q]) (hq : q.Prime) : n.Prime := by
  apply h.prime
  simpa only [List.mem_singleton, forall_eq] using hq

end Passes

theorem prime_order : Point.order.Prime := by
  have h : Passes Point.order 7 255
      (List.replicate 32 2 ++ [3, 906349, 906349, 254760293, 254760293]) := by decide +kernel
  apply h.prime
  intro q hq
  simp only [List.mem_append, List.mem_replicate, List.mem_cons, List.not_mem_nil, or_false] at hq
  rcases hq with ⟨-, rfl⟩ | rfl | rfl | rfl | rfl | rfl <;> norm_num

/-- The factors are certified in their turn, down to numbers that can be tried
out. -/
theorem prime_modulus : modulus.Prime := by
  have h₁ : Nat.Prime 13090036741 := by
    have h : Passes 13090036741 10 34 [421987] := by decide +kernel
    exact h.prime_of_single (by norm_num)
  have h₂ : Nat.Prime 3819663927398918131021 := by
    have h : Passes 3819663927398918131021 6 72 [755057, 13090036741] := by decide +kernel
    apply h.prime
    simp only [List.mem_cons, List.not_mem_nil, or_false, forall_eq_or_imp, forall_eq]
    exact ⟨by norm_num, h₁⟩
  have h₃ : Nat.Prime 1125266252156850182658904441386709967 := by
    have h : Passes 1125266252156850182658904441386709967 5 120 [3819663927398918131021] := by
      decide +kernel
    exact h.prime_of_single h₂
  have h₄ : Nat.Prime
      15778400344354997994418419698270088123916926905054652752758194827714659 := by
    have h : Passes 15778400344354997994418419698270088123916926905054652752758194827714659 2 234
        [1125266252156850182658904441386709967] := by decide +kernel
    exact h.prime_of_single h₃
  have h : Passes modulus 2 381
      [15778400344354997994418419698270088123916926905054652752758194827714659] := by
    decide +kernel
  exact h.prime_of_single h₄

end MeteredTree.Curve

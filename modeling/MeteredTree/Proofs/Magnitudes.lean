import MeteredTree.Proofs.Outcomes

/-! Sizes of integers. What an operator computes is no larger than its operands
allow, and a number of bytes has room for it. Sizes are absolute values, and
all of them are compared with the capacities of byte strings. -/

namespace MeteredTree

namespace Bytes

theorem capacity_add (a b : Nat) : capacity (a + b) = capacity a * capacity b :=
  Nat.pow_add 256 a b

theorem capacity_mono {a b : Nat} (h : a ≤ b) : capacity a ≤ capacity b :=
  Nat.pow_le_pow_right (by decide) h

theorem succ_le_capacity (n : Nat) : n + 1 ≤ capacity n :=
  Nat.lt_pow_self (by decide)

theorem capacity_eq_two_pow (n : Nat) : capacity n = Nat.pow 2 (8 * n) :=
  (Nat.pow_mul 2 8 n).symm

theorem two_pow_le_capacity {k n : Nat} (h : k ≤ 8 * n) : Nat.pow 2 k ≤ capacity n := by
  rw [capacity_eq_two_pow]
  exact Nat.pow_le_pow_right (by decide) h

end Bytes

open Bytes

theorem xor_le_add (m n : Nat) : m ^^^ n ≤ m + n := by
  induction m using Nat.strongRecOn generalizing n with
  | ind m ih =>
    by_cases hm : m = 0
    · simp [hm]
    · have hdiv := Nat.xor_div_two (a := m) (b := n)
      have hmod := Nat.xor_mod_two_eq_one (a := m) (b := n)
      have hle := ih (m / 2) (by omega) (n / 2)
      omega

theorem or_le_add (m n : Nat) : m ||| n ≤ m + n := by
  induction m using Nat.strongRecOn generalizing n with
  | ind m ih =>
    by_cases hm : m = 0
    · simp [hm]
    · have hdiv := Nat.or_div_two (a := m) (b := n)
      have hmod := Nat.or_mod_two_eq_one (a := m) (b := n)
      have hle := ih (m / 2) (by omega) (n / 2)
      omega

namespace Integer

theorem natAbs_ofBytes_le (b : Bytes) : (ofBytes b).natAbs ≤ capacity b.length := by
  have hlt := toNat_lt b
  rw [ofBytes.eq_def]
  split
  · exact Nat.zero_le _
  · split
    · omega
    · omega

theorem bits_le {n k : Nat} (h : n < Nat.pow 2 k) : bits n ≤ k := by
  rw [bits]
  split
  · exact Nat.zero_le k
  · next hn => exact (Nat.log2_lt hn).mpr h

theorem width_le {v : Int} {n : Nat} (h : v.natAbs ≤ capacity n) : width v ≤ n + 1 := by
  have hpow : Nat.pow 2 (8 * n) < Nat.pow 2 (8 * n + 1) :=
    Nat.pow_lt_pow_right (by decide) (Nat.lt_succ_self _)
  rw [capacity_eq_two_pow] at h
  cases v with
  | ofNat k =>
    have hbits : bits k ≤ 8 * n + 1 := bits_le (Nat.lt_of_le_of_lt h hpow)
    rw [width]
    omega
  | negSucc k =>
    have hbits : bits k ≤ 8 * n := bits_le h
    rw [width]
    omega

theorem length_toBytes_le {v : Int} {n : Nat} (h : v.natAbs ≤ capacity n) :
    (toBytes v).length ≤ n + 1 := by
  rw [toBytes]
  split
  · exact Nat.zero_le _
  · rw [signedBytes, length_ofNat]
    exact width_le h

theorem limbs_le {v : Int} {n : Nat} (h : v.natAbs ≤ capacity n) : limbs v ≤ n + 1 := by
  have hpow : Nat.pow 2 (8 * n) < Nat.pow 2 (8 * n + 1) :=
    Nat.pow_lt_pow_right (by decide) (Nat.lt_succ_self _)
  rw [capacity_eq_two_pow] at h
  have hbits : bits v.natAbs ≤ 8 * n + 1 := bits_le (Nat.lt_of_le_of_lt h hpow)
  rw [limbs]
  omega

theorem unit_le_capacity {v : Int} (h : v.natAbs ≤ 1) (n : Nat) : v.natAbs ≤ capacity n :=
  Nat.le_trans h (capacity_pos n)

theorem natAbs_and_le (a b : Int) : (and a b).natAbs ≤ a.natAbs + b.natAbs := by
  match a, b with
  | .ofNat m, .ofNat n =>
    have hle : m &&& n ≤ m := Nat.and_le_left
    simp only [and, Int.natAbs]
    omega
  | .ofNat m, .negSucc n =>
    have hand : m &&& n ≤ n := Nat.and_le_right
    have hle := xor_le_add m (m &&& n)
    simp only [and, Int.natAbs]
    omega
  | .negSucc m, .ofNat n =>
    have hand : n &&& m ≤ m := Nat.and_le_right
    have hle := xor_le_add n (n &&& m)
    simp only [and, Int.natAbs]
    omega
  | .negSucc m, .negSucc n =>
    have hle := or_le_add m n
    simp only [and, Int.natAbs]
    omega

theorem natAbs_or_le (a b : Int) : (or a b).natAbs ≤ a.natAbs + b.natAbs := by
  match a, b with
  | .ofNat m, .ofNat n =>
    exact or_le_add m n
  | .ofNat m, .negSucc n =>
    have hand : n &&& m ≤ m := Nat.and_le_right
    have hle := xor_le_add n (n &&& m)
    simp only [or, Int.natAbs]
    omega
  | .negSucc m, .ofNat n =>
    have hand : m &&& n ≤ n := Nat.and_le_right
    have hle := xor_le_add m (m &&& n)
    simp only [or, Int.natAbs]
    omega
  | .negSucc m, .negSucc n =>
    have hle : m &&& n ≤ m := Nat.and_le_left
    simp only [or, Int.natAbs]
    omega

theorem natAbs_xor_le (a b : Int) : (xor a b).natAbs ≤ a.natAbs + b.natAbs := by
  match a, b with
  | .ofNat m, .ofNat n | .ofNat m, .negSucc n | .negSucc m, .ofNat n | .negSucc m, .negSucc n =>
    have hle := xor_le_add m n
    simp only [xor, Int.natAbs]
    omega

theorem natAbs_fmod_le (a : Int) {b : Int} (hb : b ≠ 0) : (a.fmod b).natAbs ≤ b.natAbs := by
  have hnonneg := Int.emod_nonneg a hb
  have hlt := Int.emod_lt a hb
  rw [Int.fmod_eq_emod]
  split
  · omega
  · omega

theorem natAbs_not_le {v : Int} {n : Nat} (h : v.natAbs ≤ capacity n) :
    (Integer.not v).natAbs ≤ capacity (n + 1) := by
  have hpos := capacity_pos n
  rw [Integer.not, capacity_succ]
  omega

theorem natAbs_shift_le {v amount : Int} {n : Nat} (h : v.natAbs ≤ capacity n)
    (hamount : amount ≤ Operator.maxShift) :
    (shift v amount).natAbs ≤ capacity (n + 8192) := by
  cases amount with
  | ofNat k =>
    have hk : k ≤ 8 * 8192 := by
      simp only [Operator.maxShift, Int.ofNat_eq_natCast] at hamount
      omega
    have hpow : Nat.pow 2 k ≤ capacity 8192 := two_pow_le_capacity hk
    rw [shift, Int.natAbs_mul, Int.natAbs_natCast, capacity_add]
    exact Nat.mul_le_mul h hpow
  | negSucc k =>
    have hle := Int.natAbs_ediv_le_natAbs v (Nat.pow 2 (k + 1))
    have hmono := capacity_mono (Nat.le_add_right n 8192)
    rw [shift]
    omega

end Integer

namespace Operand

/-- An operand of at most `n` bytes. -/
structure Short (n : Nat) (x : Operand) : Prop where
  width_le : x.width ≤ n
  natAbs_le : x.value.natAbs ≤ capacity n

variable {n : Nat}

theorem short_ofBytes {b : Bytes} (h : b.length ≤ n) : (ofBytes b).Short n :=
  ⟨h, Nat.le_trans (Integer.natAbs_ofBytes_le b) (capacity_mono h)⟩

theorem natAbs_unsigned_le {b : Bytes} (h : b.length ≤ n) :
    (ofBytes b).unsigned.natAbs ≤ capacity n := by
  have habs := Integer.natAbs_ofBytes_le b
  have hmono := capacity_mono h
  simp only [unsigned, ofBytes]
  omega

end Operand

namespace Operator

variable {n : Nat} {xs : List Operand}

/-- A fold whose steps at most add the sizes up. -/
theorem natAbs_foldl_le {f : Int → Int → Int}
    (hf : ∀ a b, (f a b).natAbs ≤ a.natAbs + b.natAbs) (hxs : ∀ x ∈ xs, x.Short n) (start : Int) :
    (xs.foldl (fun total x => f total x.value) start).natAbs ≤
      start.natAbs + xs.length * capacity n := by
  induction xs generalizing start with
  | nil => simp
  | cons x xs ih =>
    have hx := (hxs x List.mem_cons_self).natAbs_le
    have hstep := hf start x.value
    have hfold := ih (fun y hy => hxs y (List.mem_cons_of_mem x hy)) (f start x.value)
    rw [List.foldl_cons, List.length_cons, Nat.succ_mul]
    omega

theorem natAbs_foldl_le_capacity {f : Int → Int → Int}
    (hf : ∀ a b, (f a b).natAbs ≤ a.natAbs + b.natAbs) (hxs : ∀ x ∈ xs, x.Short n) {start : Int}
    (hstart : start.natAbs ≤ capacity n) :
    (xs.foldl (fun total x => f total x.value) start).natAbs ≤ capacity (n + xs.length) := by
  have hfold := natAbs_foldl_le hf hxs start
  -- a byte more for each operand is far more than its carry needs
  have hmul := Nat.mul_le_mul_right (capacity n) (succ_le_capacity xs.length)
  rw [Nat.succ_mul] at hmul
  rw [capacity_add, Nat.mul_comm]
  omega

theorem natAbs_difference_le (hxs : ∀ x ∈ xs, x.Short n) :
    (difference xs).natAbs ≤ capacity (n + xs.length) := by
  cases xs with
  | nil => exact Nat.zero_le _
  | cons x xs =>
    have hx := (hxs x List.mem_cons_self).natAbs_le
    have hle : ∀ a b : Int, (a - b).natAbs ≤ a.natAbs + b.natAbs := by
      intro a b
      omega
    have hfold := natAbs_foldl_le_capacity hle (fun y hy => hxs y (List.mem_cons_of_mem x hy)) hx
    have hmono := capacity_mono (Nat.le_succ (n + xs.length))
    exact Nat.le_trans hfold hmono

theorem natAbs_productFrom_le {v : Int} {k : Nat} (hv : v.natAbs ≤ capacity k)
    (hxs : ∀ x ∈ xs, x.Short n) (width : Nat) (cost : Cost) :
    (productFrom v width cost xs).1.natAbs ≤ capacity (k + xs.length * n) := by
  induction xs generalizing v k width cost with
  | nil => simpa [productFrom] using hv
  | cons x xs ih =>
    have hx := (hxs x List.mem_cons_self).natAbs_le
    have hnext : (v * x.value).natAbs ≤ capacity (k + n) := by
      rw [Int.natAbs_mul, capacity_add]
      exact Nat.mul_le_mul hv hx
    have hrest := ih hnext (fun y hy => hxs y (List.mem_cons_of_mem x hy))
      (Integer.limbs (v * x.value))
      (Cost.satAdd cost (Price.multiplication (UInt64.ofNat width) (UInt64.ofNat x.width)))
    rw [List.length_cons, Nat.succ_mul, Nat.add_comm (xs.length * n), ← Nat.add_assoc]
    exact hrest

theorem natAbs_product_le (hxs : ∀ x ∈ xs, x.Short n) :
    (product xs).1.natAbs ≤ capacity (xs.length * n) := by
  cases xs with
  | nil => exact capacity_pos _
  | cons x xs =>
    have hx := (hxs x List.mem_cons_self).natAbs_le
    have hle := natAbs_productFrom_le hx (fun y hy => hxs y (List.mem_cons_of_mem x hy))
      x.width Price.multiply
    rw [List.length_cons, Nat.succ_mul, Nat.add_comm]
    exact hle

end Operator

end MeteredTree

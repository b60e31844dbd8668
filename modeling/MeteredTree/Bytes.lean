/-! Byte strings. A byte string is a list of bytes; where it stands for an
unsigned number, the most significant byte comes first. Numbers are put
together and taken apart by halves, which keeps long byte strings cheap; the
lemmas give the digit-by-digit rules. -/

namespace MeteredTree

/-- The value of digits, least significant first. -/
def digitsValue (base : Nat) (digits : List Nat) : Nat :=
  digits.foldr (fun d n => d + base * n) 0

/-- Joins neighbouring digits, least significant first, to digits of the
squared base, behind those that are `done` in reverse. -/
def joinPairs (base : Nat) : List Nat → List Nat → List Nat
  | a :: b :: digits, done => joinPairs base digits ((a + base * b) :: done)
  | digits, done => done.reverse ++ digits

theorem length_joinPairs (base : Nat) (digits done : List Nat) :
    (joinPairs base digits done).length = done.length + (digits.length + 1) / 2 := by
  fun_induction joinPairs base digits done with
  | case1 a b digits done ih => simp only [ih, List.length_cons]; omega
  | case2 digits done h =>
    match digits, h with
    | [], _ => simp
    | [a], _ => simp
    | a :: b :: r, h => exact absurd rfl (h a b r)

/-- The number with the given digits, least significant first. -/
def joinDigits (base : Nat) (digits : List Nat) : Nat :=
  match digits with
  | [] => 0
  | [d] => d
  | a :: b :: rest => joinDigits (base * base) (joinPairs base (a :: b :: rest) [])
termination_by digits.length
decreasing_by simp only [length_joinPairs, List.length_cons, List.length_nil]; omega

theorem digitsValue_joinPairs (base : Nat) (digits done : List Nat) :
    digitsValue (base * base) (joinPairs base digits done) =
      digitsValue (base * base) (done.reverse ++ [digitsValue base digits]) := by
  fun_induction joinPairs base digits done with
  | case1 a b digits done ih =>
    rw [ih]
    simp only [digitsValue, List.reverse_cons, List.append_assoc, List.foldr_append,
      List.foldr_cons, List.foldr_nil, List.cons_append, List.nil_append]
    congr 1
    simp only [Nat.mul_zero, Nat.add_zero, Nat.mul_add, Nat.mul_assoc]
    omega
  | case2 digits done h =>
    match digits, h with
    | [], _ => simp [digitsValue, List.foldr_append]
    | [a], _ => simp [digitsValue]
    | a :: b :: r, h => exact absurd rfl (h a b r)

theorem joinDigits_eq (base : Nat) (digits : List Nat) :
    joinDigits base digits = digitsValue base digits := by
  fun_induction joinDigits base digits with
  | case1 => rfl
  | case2 base d => simp [digitsValue]
  | case3 base a b rest ih => rw [ih, digitsValue_joinPairs]; simp [digitsValue]

abbrev Bytes := List UInt8

namespace Bytes

/-- How many numbers there are of `width` bytes. -/
def capacity (width : Nat) : Nat := Nat.pow 256 width

theorem capacity_succ (width : Nat) : capacity (width + 1) = capacity width * 256 := rfl

theorem capacity_pos (width : Nat) : 0 < capacity width := Nat.pow_pos (by decide)

/-- The unsigned big-endian value. -/
def toNat (b : Bytes) : Nat :=
  joinDigits 256 (b.foldl (fun digits x => x.toNat :: digits) [])

/-- The lowest `width` base-256 digits of `n`, most significant first. -/
def ofNat (width n : Nat) : Bytes :=
  match width with
  | 0 => []
  | 1 => [UInt8.ofNat n]
  | width + 2 =>
    let low := (width + 2) / 2
    ofNat (width + 2 - low) (n / capacity low) ++ ofNat low (n % capacity low)

@[simp] theorem toNat_nil : toNat [] = 0 := by
  simp [toNat, joinDigits]

@[simp] theorem toNat_append_singleton (b : Bytes) (x : UInt8) :
    toNat (b ++ [x]) = 256 * toNat b + x.toNat := by
  simp only [toNat, joinDigits_eq, List.foldl_append, List.foldl_cons, List.foldl_nil,
    digitsValue, List.foldr_cons]
  omega

theorem digitsValue_foldl (b : Bytes) (digits : List Nat) :
    digitsValue 256 (b.foldl (fun digits x => x.toNat :: digits) digits) =
      b.foldl (fun n x => 256 * n + x.toNat) (digitsValue 256 digits) := by
  induction b generalizing digits with
  | nil => rfl
  | cons x b ih =>
    rw [List.foldl_cons, ih, List.foldl_cons]
    congr 1
    simp only [digitsValue, List.foldr_cons]
    omega

/-- The value, taking one byte after the other. -/
theorem toNat_eq_foldl (b : Bytes) : toNat b = b.foldl (fun n x => 256 * n + x.toNat) 0 := by
  rw [toNat, joinDigits_eq, digitsValue_foldl]
  rfl

@[simp] theorem length_ofNat (width n : Nat) : (ofNat width n).length = width := by
  fun_induction ofNat width n with
  | case1 => rfl
  | case2 => rfl
  | case3 n width low ih₁ ih₂ =>
    rw [List.length_append, ih₁, ih₂]
    omega

/-- The same digits, taken one after the other from the lowest. -/
def lowDigits : Nat → Nat → Bytes
  | 0, _ => []
  | width + 1, n => lowDigits width (n / 256) ++ [UInt8.ofNat n]

theorem lowDigits_add (a b n : Nat) :
    lowDigits (a + b) n = lowDigits a (n / capacity b) ++ lowDigits b n := by
  induction b generalizing n with
  | zero => simp [lowDigits, capacity]
  | succ b ih =>
    rw [← Nat.add_assoc, lowDigits, ih, lowDigits, ← List.append_assoc, Nat.div_div_eq_div_mul,
      capacity_succ, Nat.mul_comm 256]

theorem lowDigits_mod (width n : Nat) :
    lowDigits width (n % capacity width) = lowDigits width n := by
  induction width generalizing n with
  | zero => rfl
  | succ width ih =>
    rw [lowDigits, lowDigits, capacity_succ, Nat.mod_mul_left_div_self, ih]
    congr 2
    apply UInt8.toNat_inj.mp
    simp only [UInt8.toNat_ofNat']
    exact Nat.mod_mod_of_dvd n (Nat.dvd_mul_left 256 (capacity width))

theorem ofNat_eq (width n : Nat) : ofNat width n = lowDigits width n := by
  fun_induction ofNat width n with
  | case1 => rfl
  | case2 => rfl
  | case3 n width low ih₁ ih₂ =>
    rw [ih₁, ih₂, lowDigits_mod, ← lowDigits_add]
    congr 1
    omega

/-- The digits, taking one after the other from the lowest. -/
theorem ofNat_succ (width n : Nat) :
    ofNat (width + 1) n = ofNat width (n / 256) ++ [UInt8.ofNat n] := by
  simp only [ofNat_eq, lowDigits]

theorem foldl_digits (b : Bytes) (n : Nat) :
    b.foldl (fun n x => 256 * n + x.toNat) n = n * capacity b.length + toNat b := by
  rw [toNat_eq_foldl]
  induction b generalizing n with
  | nil => simp [capacity]
  | cons x b ih =>
    rw [List.foldl_cons, ih, List.foldl_cons, ih (256 * 0 + x.toNat), List.length_cons,
      capacity_succ, Nat.mul_zero, Nat.zero_add, Nat.add_mul, Nat.mul_comm 256, Nat.mul_assoc,
      Nat.mul_comm 256]
    omega

theorem toNat_cons (x : UInt8) (b : Bytes) :
    toNat (x :: b) = x.toNat * capacity b.length + toNat b := by
  rw [toNat_eq_foldl, List.foldl_cons, foldl_digits, Nat.mul_zero, Nat.zero_add]

theorem toNat_lt (b : Bytes) : toNat b < capacity b.length := by
  induction b with
  | nil => simp [capacity]
  | cons x b ih =>
    have hx : x.toNat + 1 ≤ 256 := x.toNat_lt
    have hmul := Nat.mul_le_mul_right (capacity b.length) hx
    rw [toNat_cons, List.length_cons, capacity_succ]
    rw [Nat.add_mul, Nat.one_mul, Nat.mul_comm 256] at hmul
    omega

theorem ofNat_mod (width n : Nat) : ofNat width (n % capacity width) = ofNat width n := by
  rw [ofNat_eq, ofNat_eq, lowDigits_mod]

/-- The digits, taking the highest first. -/
theorem ofNat_cons (width n : Nat) :
    ofNat (width + 1) n = UInt8.ofNat (n / capacity width) :: ofNat width n := by
  rw [ofNat_eq, ofNat_eq, Nat.add_comm, lowDigits_add]
  rfl

/-- Bytes are the digits of their value. -/
theorem ofNat_toNat (b : Bytes) : ofNat b.length (toNat b) = b := by
  induction b with
  | nil => simp [ofNat]
  | cons x b ih =>
    have hlt := toNat_lt b
    have hdiv : (x.toNat * capacity b.length + toNat b) / capacity b.length = x.toNat := by
      rw [Nat.mul_comm, Nat.mul_add_div (capacity_pos _), Nat.div_eq_of_lt hlt, Nat.add_zero]
    have hmod : (x.toNat * capacity b.length + toNat b) % capacity b.length = toNat b := by
      rw [Nat.mul_comm, Nat.mul_add_mod, Nat.mod_eq_of_lt hlt]
    rw [toNat_cons, List.length_cons, ofNat_cons, hdiv, UInt8.ofNat_toNat, ← ofNat_mod, hmod, ih]

theorem toNat_ofNat (width n : Nat) : toNat (ofNat width n) = n % capacity width := by
  induction width generalizing n with
  | zero => simp [ofNat, capacity, Nat.mod_one]
  | succ width ih =>
    rw [ofNat_succ, toNat_append_singleton, ih, capacity_succ, Nat.mul_comm (capacity width),
      Nat.mod_mul, UInt8.toNat_ofNat']
    omega

/-- The unsigned lexicographic order; a proper initial segment comes first. -/
def less : Bytes → Bytes → Bool
  | _, [] => false
  | [], _ :: _ => true
  | x :: xs, y :: ys => if x == y then less xs ys else x < y

end Bytes

end MeteredTree

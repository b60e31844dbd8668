import MeteredTree.Proofs.Magnitudes

/-! Signed numbers as byte strings. The value of `n` bytes is the balanced
remainder of their unsigned value, so `n` bytes have room for one half of their
capacity on either side of zero, and each number that fits is the value of one
byte string of that length. A longer one repeats the sign in front, and writing
takes the shortest. -/

namespace MeteredTree.Integer

open Bytes

theorem two_mul_toNat_lt_iff (top : UInt8) (low : Bytes) :
    2 * toNat (top :: low) < capacity (top :: low).length ↔ top < 128 := by
  have hlow := toNat_lt low
  have hpos := capacity_pos low.length
  rw [toNat_cons, List.length_cons, capacity_succ, UInt8.lt_iff_toNat_lt]
  change _ ↔ top.toNat < 128
  constructor
  · intro h
    apply Nat.lt_of_not_le
    intro htop
    have hmul := Nat.mul_le_mul_right (capacity low.length) htop
    omega
  · intro htop
    have hmul := Nat.mul_le_mul_right (capacity low.length) (Nat.le_of_lt_succ htop)
    omega

theorem ofBytes_eq_bmod (b : Bytes) : ofBytes b = (toNat b : Int).bmod (capacity b.length) := by
  cases b with
  | nil => simp [ofBytes, capacity]
  | cons top low =>
    have hlt := toNat_lt (top :: low)
    have hhalf := two_mul_toNat_lt_iff top low
    have heven : capacity (top :: low).length = capacity low.length * 256 := rfl
    rw [Int.bmod_def, Int.emod_eq_of_lt (by omega) (by omega), ofBytes]
    by_cases htop : top < 128
    · have hlow := hhalf.mpr htop
      rw [if_pos htop, if_pos (by omega)]
    · have hhigh := mt hhalf.mp htop
      rw [if_neg htop, if_neg (by omega)]

/-- The two's-complement forms of `n` bytes include one of `v`. -/
def HasRoom (n : Nat) (v : Int) : Prop :=
  -(capacity n : Int) ≤ v * 2 ∧ v * 2 < capacity n

theorem hasRoom_ofBytes (b : Bytes) : HasRoom b.length (ofBytes b) := by
  have hpos := capacity_pos b.length
  have hle := Int.le_bmod (x := toNat b) hpos
  have hlt := Int.bmod_lt (x := toNat b) hpos
  rw [ofBytes_eq_bmod, HasRoom]
  omega

theorem HasRoom.mono {n k : Nat} {v : Int} (h : HasRoom n v) (hle : n ≤ k) : HasRoom k v := by
  have hcap := capacity_mono hle
  simp only [HasRoom] at h ⊢
  omega

theorem HasRoom.eq_zero {v : Int} (h : HasRoom 0 v) : v = 0 := by
  have hcap : capacity 0 = 1 := rfl
  rw [HasRoom, hcap] at h
  omega

theorem HasRoom.two_natAbs_le {n : Nat} {v : Int} (h : HasRoom n v) :
    2 * v.natAbs ≤ capacity n := by
  rw [HasRoom] at h
  omega

theorem toNat_eq_emod (b : Bytes) : (toNat b : Int) = ofBytes b % capacity b.length := by
  have hlt := toNat_lt b
  rw [ofBytes_eq_bmod, Int.bmod_emod, Int.emod_eq_of_lt (by omega) (by omega)]

theorem toNat_eq_ite (b : Bytes) :
    (toNat b : Int) = if ofBytes b < 0 then ofBytes b + capacity b.length else ofBytes b := by
  have hlt := toNat_lt b
  cases b with
  | nil => simp [ofBytes]
  | cons top low =>
    simp only [ofBytes]
    split
    · omega
    · omega

theorem ofBytes_ofNat {n : Nat} {v : Int} (h : HasRoom n v) :
    ofBytes (Bytes.ofNat n (v % capacity n).toNat) = v := by
  have hpos := capacity_pos n
  have hnonneg : 0 ≤ v % capacity n := Int.emod_nonneg _ (by omega)
  rw [ofBytes_eq_bmod, length_ofNat, toNat_ofNat, Int.natCast_emod, Int.toNat_of_nonneg hnonneg,
    Int.emod_bmod, Int.emod_bmod]
  exact Int.bmod_eq_of_le_mul_two h.1 h.2

/-- Byte strings of one length with one value are equal. -/
theorem eq_of_ofBytes_eq {b c : Bytes} (hlength : b.length = c.length)
    (hvalue : ofBytes b = ofBytes c) : b = c := by
  have hb := toNat_eq_emod b
  have hc := toNat_eq_emod c
  rw [hvalue, hlength, ← hc] at hb
  rw [← ofNat_toNat b, ← ofNat_toNat c, hlength, Int.ofNat_inj.mp hb]

theorem lt_two_pow_bits (n : Nat) : n < Nat.pow 2 (bits n) := by
  rw [bits]
  split
  · next h =>
    rw [h]
    decide
  · exact Nat.lt_log2_self

theorem toNat_magnitude (v : Int) : toNat (magnitude v) = v.natAbs := by
  have hlt := lt_two_pow_bits v.natAbs
  have hbits : bits v.natAbs ≤ 8 * max 1 (limbs v) := by
    rw [limbs]
    omega
  have hcapacity := two_pow_le_capacity hbits
  rw [magnitude, toNat_ofNat, Nat.mod_eq_of_lt (Nat.lt_of_lt_of_le hlt hcapacity)]

theorem two_mul_two_pow_bits_le (n : Nat) : 2 * Nat.pow 2 (bits n) ≤ capacity (bits n / 8 + 1) := by
  have hle : bits n + 1 ≤ 8 * (bits n / 8 + 1) := by omega
  have hpow := two_pow_le_capacity hle
  rw [Nat.mul_comm]
  exact hpow

theorem hasRoom_width (v : Int) : HasRoom (width v) v := by
  cases v with
  | ofNat n =>
    have hlt := lt_two_pow_bits n
    have hle := two_mul_two_pow_bits_le n
    rw [width, HasRoom, Int.ofNat_eq_natCast]
    omega
  | negSucc n =>
    have hlt := lt_two_pow_bits n
    have hle := two_mul_two_pow_bits_le n
    rw [width, HasRoom]
    omega

theorem lt_two_pow_of_two_mul_lt {m n : Nat} (h : 2 * m < capacity (n + 1)) :
    m < Nat.pow 2 (8 * n + 7) := by
  have hpow : Nat.pow 2 (8 * (n + 1)) = Nat.pow 2 (8 * n + 7) * 2 := rfl
  rw [capacity_eq_two_pow, hpow] at h
  omega

theorem HasRoom.width_le {n : Nat} {v : Int} (h : HasRoom (n + 1) v) : width v ≤ n + 1 := by
  rw [HasRoom] at h
  cases v with
  | ofNat m =>
    rw [Int.ofNat_eq_natCast] at h
    have hbits := bits_le (lt_two_pow_of_two_mul_lt (m := m) (n := n) (by omega))
    rw [width]
    omega
  | negSucc m =>
    have hbits := bits_le (lt_two_pow_of_two_mul_lt (m := m) (n := n) (by omega))
    rw [width]
    omega

theorem ofBytes_toBytes (v : Int) : ofBytes (toBytes v) = v := by
  rw [toBytes]
  split
  · next h => rw [h, ofBytes]
  · exact ofBytes_ofNat (hasRoom_width v)

theorem HasRoom.length_toBytes_le {n : Nat} {v : Int} (h : HasRoom n v) :
    (toBytes v).length ≤ n := by
  by_cases hv : v = 0
  · simp [toBytes, hv]
  · cases n with
    | zero => exact absurd h.eq_zero hv
    | succ n =>
      rw [toBytes, if_neg hv, signedBytes, length_ofNat]
      exact h.width_le

theorem limbs_le_of_two_natAbs_le {n : Nat} {v : Int} (h : 2 * v.natAbs ≤ capacity n) :
    limbs v ≤ n := by
  have hpos := capacity_pos n
  have hlt : v.natAbs < capacity n := by omega
  rw [capacity_eq_two_pow] at hlt
  have hbits := bits_le hlt
  rw [limbs]
  omega

/-- The byte that goes on in front without changing the value. -/
def signByte (v : Int) : UInt8 :=
  if v < 0 then 0xff else 0x00

theorem ofBytes_signByte_cons (b : Bytes) : ofBytes (signByte (ofBytes b) :: b) = ofBytes b := by
  have hroom := hasRoom_ofBytes b
  have hwide := hroom.mono (Nat.le_succ b.length)
  have hvalue : ((ofBytes b).bmod (capacity (b.length + 1))) = ofBytes b :=
    Int.bmod_eq_of_le_mul_two hwide.1 hwide.2
  have htoNat := toNat_eq_emod b
  have hcap := capacity_succ b.length
  rw [HasRoom] at hroom
  rw [ofBytes_eq_bmod (_ :: b), toNat_cons, List.length_cons]
  -- a negative value stands `capacity` below the unsigned one, at either length
  by_cases hv : ofBytes b < 0
  · have hneg : ofBytes b % capacity b.length = ofBytes b + capacity b.length := by
      rw [← Int.add_emod_right, Int.emod_eq_of_lt (by omega) (by omega)]
    have hbyte : (signByte (ofBytes b)).toNat = 255 := by
      rw [signByte, if_pos hv]
      rfl
    have hsum : ((255 * capacity b.length + toNat b : Nat) : Int) =
        ofBytes b + (capacity (b.length + 1) : Nat) := by omega
    rw [hbyte, hsum, Int.add_bmod_right, hvalue]
  · have hnonneg : ofBytes b % capacity b.length = ofBytes b :=
      Int.emod_eq_of_lt (by omega) (by omega)
    have hbyte : (signByte (ofBytes b)).toNat = 0 := by
      rw [signByte, if_neg hv]
      rfl
    rw [hbyte, Nat.zero_mul, Nat.zero_add, htoNat, hnonneg, hvalue]

theorem ofBytes_signExtended (k : Nat) (b : Bytes) :
    ofBytes (List.replicate k (signByte (ofBytes b)) ++ b) = ofBytes b := by
  induction k with
  | zero => rfl
  | succ k ih =>
    have hcons := ofBytes_signByte_cons (List.replicate k (signByte (ofBytes b)) ++ b)
    rw [ih] at hcons
    exact hcons

/-- Of two byte strings with one value, the longer is the shorter with its sign
repeated in front. -/
theorem eq_signExtended {b c : Bytes} (hvalue : ofBytes c = ofBytes b)
    (hlength : b.length ≤ c.length) :
    c = List.replicate (c.length - b.length) (signByte (ofBytes b)) ++ b := by
  apply eq_of_ofBytes_eq
  · rw [List.length_append, List.length_replicate]
    omega
  · rw [ofBytes_signExtended, hvalue]

theorem length_toBytes_le_of_value (b : Bytes) : (toBytes (ofBytes b)).length ≤ b.length :=
  (hasRoom_ofBytes b).length_toBytes_le

/-- No byte string with the value is shorter. -/
def IsMinimal (b : Bytes) : Prop :=
  ∀ c, ofBytes c = ofBytes b → b.length ≤ c.length

theorem isMinimal_toBytes (v : Int) : IsMinimal (toBytes v) := by
  intro c hvalue
  have hle := length_toBytes_le_of_value c
  rwa [hvalue, ofBytes_toBytes] at hle

theorem IsMinimal.eq_toBytes {b : Bytes} (h : IsMinimal b) : b = toBytes (ofBytes b) := by
  have hvalue := ofBytes_toBytes (ofBytes b)
  have hle := h _ hvalue
  have hge := length_toBytes_le_of_value b
  exact eq_of_ofBytes_eq (Nat.le_antisymm hle hge) hvalue.symm

theorem eq_zeros_or_ones (k : Nat) (v : Int) :
    (∀ x ∈ List.replicate k (signByte v), x = 0x00) ∨
      ∀ x ∈ List.replicate k (signByte v), x = 0xff := by
  by_cases hv : v < 0
  · right
    intro x hx
    rw [List.eq_of_mem_replicate hx, signByte, if_pos hv]
  · left
    intro x hx
    rw [List.eq_of_mem_replicate hx, signByte, if_neg hv]

/-- Writing undoes reading up to repeated sign bytes, and no other byte string
with the value is as short. -/
theorem toBytes_is_normal_form :
    (∀ v, ofBytes (toBytes v) = v) ∧
    ∀ b,
      (∃ dropped, b = dropped ++ toBytes (ofBytes b) ∧
        ((∀ x ∈ dropped, x = 0x00) ∨ ∀ x ∈ dropped, x = 0xff)) ∧
      (∀ c, ofBytes c = ofBytes b → c ≠ toBytes (ofBytes b) →
        (toBytes (ofBytes b)).length < c.length) ∧
      limbs (ofBytes b) ≤ b.length := by
  refine ⟨ofBytes_toBytes, fun b => ⟨?_, ?_, ?_⟩⟩
  · have hextended := eq_signExtended (ofBytes_toBytes (ofBytes b)).symm
      (length_toBytes_le_of_value b)
    exact ⟨_, hextended, eq_zeros_or_ones _ _⟩
  · intro c hvalue hne
    have hle := length_toBytes_le_of_value c
    rw [hvalue] at hle
    apply Nat.lt_of_le_of_ne hle
    intro hlength
    exact hne (eq_of_ofBytes_eq hlength.symm (hvalue.trans (ofBytes_toBytes _).symm))
  · exact limbs_le_of_two_natAbs_le (hasRoom_ofBytes b).two_natAbs_le

example : [0, 127, 128, -128, -129].map toBytes =
    [[], [0x7f], [0x00, 0x80], [0x80], [0xff, 0x7f]] := by
  decide +kernel

end MeteredTree.Integer

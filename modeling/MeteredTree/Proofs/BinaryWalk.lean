import MeteredTree.Integer
import MeteredTree.Proofs.LengthFields
import MeteredTree.Proofs.Pace

/-! A path as a number. Looking up a path goes down from the environment by the
binary digits of the number that its bytes stand for. The bytes are read by a
cursor that moves over one bit after the other, from the last byte to the first
one that is not zero, and never past it. -/

namespace MeteredTree

namespace Path

/-- Goes down by the binary digits of a number, the lowest first: an even
number leads to the first and an odd one to the rest, until the number is 1 or
0. The walk gets stuck at an atom that it would have to go into. -/
def walk (n : Nat) (node : Node) : Except Bytes Node :=
  if n ≤ 1 then .ok node
  else match node with
    | .atom bytes => .error bytes
    | .pair first rest => if n % 2 = 0 then walk (n / 2) first else walk (n / 2) rest

theorem walk_of_le_one {n : Nat} (h : n ≤ 1) (node : Node) : walk n node = .ok node := by
  rw [walk.eq_def, if_pos h]

theorem walk_atom {n : Nat} (h : 1 < n) (bytes : Bytes) : walk n (.atom bytes) = .error bytes := by
  rw [walk, if_neg (Nat.not_le.mpr h)]

theorem walk_pair {n : Nat} (h : 1 < n) (first rest : Node) :
    walk n (.pair first rest) = walk (n / 2) (if n % 2 = 0 then first else rest) := by
  rw [walk, if_neg (Nat.not_le.mpr h)]
  split <;> rfl

/-- What a walk comes to as a response, if it starts with this cost and each
leg adds to it. -/
def walkResponse (n : Nat) (node : Node) (cost : Cost) : Response :=
  match walk n node with
  | .ok value => .ok ⟨cost + UInt64.ofNat (4 * n.log2), value⟩
  | .error bytes => fault .pathIntoAtom (.atom bytes)

theorem log2_half {n : Nat} (h : 1 < n) : n.log2 = (n / 2).log2 + 1 := by
  rw [Nat.log2_def, if_pos (Nat.succ_le_of_lt h)]

theorem log2_of_le_one {n : Nat} (h : n ≤ 1) : n.log2 = 0 := by
  rw [Nat.log2_def, if_neg (by omega)]

theorem walkResponse_of_le_one {n : Nat} (h : n ≤ 1) (node : Node) (cost : Cost) :
    walkResponse n node cost = .ok ⟨cost, node⟩ := by
  rw [walkResponse, walk_of_le_one h, log2_of_le_one h]
  simp

theorem walkResponse_atom {n : Nat} (h : 1 < n) (bytes : Bytes) (cost : Cost) :
    walkResponse n (.atom bytes) cost = fault .pathIntoAtom (.atom bytes) := by
  rw [walkResponse, walk_atom h]

theorem walkResponse_pair {n : Nat} (h : 1 < n) (first rest : Node) (cost : Cost) :
    walkResponse n (.pair first rest) cost =
      walkResponse (n / 2) (if n % 2 = 0 then first else rest) (cost + Price.pathLeg) := by
  have hcost : cost + UInt64.ofNat (4 * n.log2) =
      cost + Price.pathLeg + UInt64.ofNat (4 * (n / 2).log2) := by
    have hprice : Price.pathLeg = UInt64.ofNat 4 := rfl
    rw [log2_half h, hprice, UInt64.add_assoc, ← UInt64.ofNat_add]
    congr 2
    omega
  rw [walkResponse, walkResponse, walk_pair h, hcost]

theorem follow_lowBits (n : Nat) (node : Node) (cost : Cost) :
    follow (lowBits n.log2 n) node cost = walkResponse n node cost := by
  induction node generalizing n cost with
  | atom bytes =>
    by_cases h : n ≤ 1
    · rw [walkResponse_of_le_one h, log2_of_le_one h]
      rfl
    · rw [walkResponse_atom (by omega), log2_half (by omega)]
      rfl
  | pair first rest ihfirst ihrest =>
    by_cases h : n ≤ 1
    · rw [walkResponse_of_le_one h, log2_of_le_one h]
      rfl
    · rw [walkResponse_pair (by omega), log2_half (by omega), lowBits, follow]
      by_cases hn : n % 2 = 0
      · simpa [hn] using ihfirst (n / 2) (cost + Price.pathLeg)
      · have hodd : n % 2 = 1 := by omega
        simpa [hodd] using ihrest (n / 2) (cost + Price.pathLeg)

theorem two_pow_succ_mul (j a : Nat) : Nat.pow 2 (j + 1) * a = 2 * (Nat.pow 2 j * a) := by
  rw [← Nat.mul_assoc, Nat.mul_comm 2]
  rfl

theorem lowBits_add (j k a x : Nat) (hx : x < Nat.pow 2 j) :
    lowBits (j + k) (Nat.pow 2 j * a + x) = lowBits j x ++ lowBits k a := by
  induction j generalizing x with
  | zero =>
    obtain rfl : x = 0 := Nat.lt_one_iff.mp hx
    simp [lowBits]
  | succ j ih =>
    have hlt : x < Nat.pow 2 j * 2 := hx
    have hlow : (2 * (Nat.pow 2 j * a) + x) % 2 = x % 2 := by omega
    have hhigh : (2 * (Nat.pow 2 j * a) + x) / 2 = Nat.pow 2 j * a + x / 2 := by omega
    rw [Nat.add_right_comm, two_pow_succ_mul, lowBits, hlow, hhigh, ih (x / 2) (by omega), lowBits,
      List.cons_append]

theorem log2_add {a : Nat} (ha : 0 < a) (j x : Nat) (hx : x < Nat.pow 2 j) :
    (Nat.pow 2 j * a + x).log2 = j + a.log2 := by
  induction j generalizing x with
  | zero =>
    obtain rfl : x = 0 := Nat.lt_one_iff.mp hx
    simp
  | succ j ih =>
    have hlt : x < Nat.pow 2 j * 2 := hx
    have hpos := Nat.mul_pos (Nat.pow_pos (n := j) (show 0 < 2 by decide)) ha
    have hhalf : (2 * (Nat.pow 2 j * a) + x) / 2 = Nat.pow 2 j * a + x / 2 := by omega
    have hone : 1 < 2 * (Nat.pow 2 j * a) + x := by
      change 0 < Nat.pow 2 j * a at hpos
      omega
    rw [two_pow_succ_mul, log2_half hone, hhalf, ih (x / 2) (by omega)]
    omega

theorem toNat_pos_of_top {top : UInt8} (h : top ≠ 0) (low : Bytes) :
    0 < Bytes.toNat (top :: low) := by
  have htop : top.toNat ≠ 0 := fun h0 => h (UInt8.toNat_inj.mp h0)
  have hpos := Nat.mul_pos (Nat.pos_of_ne_zero htop) (Bytes.capacity_pos low.length)
  rw [Bytes.toNat_cons]
  omega

theorem lowBits_top {top : UInt8} (h : top ≠ 0) (low : Bytes) :
    low.reverse.flatMap byteLegs ++ topLegs top =
      lowBits (Bytes.toNat (top :: low)).log2 (Bytes.toNat (top :: low)) := by
  obtain ⟨lowest, rfl⟩ : ∃ lowest : Bytes, low = lowest.reverse := ⟨low.reverse, by simp⟩
  rw [List.reverse_reverse]
  induction lowest with
  | nil => simp [topLegs, Bytes.toNat_cons, Bytes.capacity]
  | cons x lowest ih =>
    have hpos := toNat_pos_of_top h lowest.reverse
    have hlog := log2_add hpos 8 x.toNat x.toNat_lt
    have hbits := lowBits_add 8 (Bytes.toNat (top :: lowest.reverse)).log2
      (Bytes.toNat (top :: lowest.reverse)) x.toNat x.toNat_lt
    rw [List.reverse_cons, ← List.cons_append, Bytes.toNat_append_singleton]
    change _ = lowBits (Nat.pow 2 8 * _ + _).log2 (Nat.pow 2 8 * _ + _)
    rw [hlog, hbits, ← ih, List.flatMap_cons, List.append_assoc]
    rfl

theorem toNat_zero_cons (path : Bytes) : Bytes.toNat (0 :: path) = Bytes.toNat path := by
  simp [Bytes.toNat_cons]

theorem leadingZeros_zero_cons (path : Bytes) :
    leadingZeros (0 :: path) = leadingZeros path + 1 := by
  simp [leadingZeros]

theorem leadingZeros_cons_of_ne {b : UInt8} (h : b ≠ 0) (path : Bytes) :
    leadingZeros (b :: path) = 0 := by
  simp [leadingZeros, h]

theorem legs_eq_lowBits (path : Bytes) :
    legs path = lowBits (Bytes.toNat path).log2 (Bytes.toNat path) := by
  induction path with
  | nil => simp [legs, lowBits]
  | cons b path ih =>
    by_cases hb : b = 0
    · subst hb
      rw [toNat_zero_cons, ← ih, legs, legs, List.dropWhile_cons]
      simp
    · rw [← lowBits_top hb, legs, List.dropWhile_cons]
      simp [hb]

theorem lookup_eq_walkResponse (path : Bytes) (env : Node) :
    lookup path env = walkResponse (Bytes.toNat path) env
      (Price.path + Price.pathLeg + UInt64.ofNat (leadingZeros path) * Price.pathZeroByte) := by
  rw [lookup, legs_eq_lowBits, follow_lowBits]

/-- A place in a path: a byte, counted from the front, and one of its bits. -/
structure Place where
  byte : Nat
  mask : UInt16
  deriving DecidableEq

/-- The highest bit that is set in a byte. The bits below it are filled in, so
that the number after has one bit set, which is the one above. -/
def topMask (b : UInt8) : UInt16 :=
  let x := b.toUInt16
  let x := x ||| x >>> 1
  let x := x ||| x >>> 2
  let x := x ||| x >>> 4
  (x + 1) >>> 1

namespace Place

/-- The highest bit that is set in the path is still to come. -/
def goesOn (path : Bytes) (p : Place) : Bool :=
  leadingZeros path < p.byte || p.mask < topMask (path.getD (leadingZeros path) 0)

/-- The next bit, which may be in the byte before; before the first byte there
is none. -/
def next (p : Place) : Option Place :=
  if p.mask <<< 1 = 0x100 then
    match p.byte with
    | 0 => none
    | byte + 1 => some ⟨byte, 1⟩
  else some ⟨p.byte, p.mask <<< 1⟩

/-- The place of a bit, counted from the lowest bit of the last byte. -/
def ofIndex (path : Bytes) (k : Nat) : Place :=
  ⟨path.length - 1 - k / 8, 1 <<< UInt16.ofNat (k % 8)⟩

end Place

/-- Moves a place over the bits of a path and goes down one leg for each. There
is nothing to give if the place leaves the path. -/
def scanFrom (path : Bytes) (p : Place) (node : Node) (cost : Cost) : Option Response :=
  if p.goesOn path then
    match node with
    | .atom bytes => some (fault .pathIntoAtom (.atom bytes))
    | .pair first rest =>
      match path[p.byte]?, p.next with
      | some b, some p' =>
        if b.toUInt16 &&& p.mask = 0 then scanFrom path p' first (cost + Price.pathLeg)
        else scanFrom path p' rest (cost + Price.pathLeg)
      | _, _ => none
  else some (.ok ⟨cost, node⟩)

def scan (path : Bytes) (env : Node) : Option Response :=
  let cost := Price.path + Price.pathLeg + UInt64.ofNat (leadingZeros path) * Price.pathZeroByte
  if leadingZeros path = path.length then some (.ok ⟨cost, env⟩)
  else scanFrom path ⟨path.length - 1, 1⟩ env cost

/-- The places that a scan moves over if nothing stops it. -/
inductive Visits (path : Bytes) : Place → Prop
  | start (h : leadingZeros path < path.length) : Visits path ⟨path.length - 1, 1⟩
  | next {p p' : Place} (h : Visits path p) (hon : p.goesOn path = true)
      (hnext : p.next = some p') : Visits path p'

theorem topMask_eq : ∀ b : UInt8, b ≠ 0 → topMask b = 1 <<< UInt16.ofNat b.toNat.log2 :=
  Wire.forall_byte (by decide +kernel)

theorem mask_lt_iff : ∀ i < 8, ∀ j < 8,
    (1 : UInt16) <<< UInt16.ofNat i < 1 <<< UInt16.ofNat j ↔ i < j := by
  decide

theorem mask_and_eq_zero_iff : ∀ b : UInt8, ∀ i < 8,
    b.toUInt16 &&& 1 <<< UInt16.ofNat i = 0 ↔ b.toNat.testBit i = false :=
  Wire.forall_byte (by decide +kernel)

theorem mask_next : ∀ i < 8, (1 : UInt16) <<< UInt16.ofNat i <<< 1 = 1 <<< UInt16.ofNat (i + 1) := by
  decide

theorem mask_eq_iff : ∀ i < 8, (1 : UInt16) <<< UInt16.ofNat (i + 1) = 0x100 ↔ i = 7 := by
  decide

theorem log2_byte_lt (b : UInt8) : b.toNat.log2 < 8 := by
  have hlt := length_topLegs_lt b
  rwa [topLegs, length_lowBits] at hlt

/-- The highest bit of the number is the highest bit of the first byte that is
not zero. -/
theorem log2_toNat {path : Bytes} (h : leadingZeros path < path.length) :
    path.getD (leadingZeros path) 0 ≠ 0 ∧
      (Bytes.toNat path).log2 = 8 * (path.length - 1 - leadingZeros path) +
        (path.getD (leadingZeros path) 0).toNat.log2 := by
  induction path with
  | nil => exact absurd h (Nat.not_lt_zero _)
  | cons b path ih =>
    by_cases hb : b = 0
    · subst hb
      rw [leadingZeros_zero_cons, List.length_cons] at h
      obtain ⟨htop, hlog⟩ := ih (by omega)
      rw [leadingZeros_zero_cons, toNat_zero_cons, List.getD_cons_succ, List.length_cons, hlog]
      exact ⟨htop, by omega⟩
    · have hlen := congrArg List.length (lowBits_top hb path)
      rw [List.length_append, length_flatMap_byteLegs, List.length_reverse, topLegs,
        length_lowBits, length_lowBits] at hlen
      rw [leadingZeros_cons_of_ne hb, List.getD_cons_zero, List.length_cons]
      exact ⟨hb, by omega⟩

theorem one_lt_shiftRight_iff (n k : Nat) : 1 < n >>> k ↔ k < n.log2 := by
  induction k generalizing n with
  | zero =>
    by_cases h : n ≤ 1
    · simp [log2_of_le_one h, h]
    · simp [log2_half (Nat.not_le.mp h)]
      omega
  | succ k ih =>
    rw [Nat.add_comm k 1, Nat.shiftRight_add]
    change 1 < (n / 2) >>> k ↔ _
    rw [ih]
    by_cases h : n ≤ 1
    · have hhalf : n / 2 = 0 := by omega
      simp [log2_of_le_one h, hhalf]
    · rw [log2_half (Nat.not_le.mp h)]
      omega

theorem testBit_toNat {path : Bytes} {k : Nat} (h : k < 8 * path.length) :
    ∃ b, path[path.length - 1 - k / 8]? = some b ∧
      b.toNat.testBit (k % 8) = (Bytes.toNat path).testBit k := by
  obtain ⟨lowest, rfl⟩ : ∃ lowest : Bytes, path = lowest.reverse := ⟨path.reverse, by simp⟩
  induction lowest generalizing k with
  | nil => exact absurd h (Nat.not_lt_zero _)
  | cons x lowest ih =>
    have hbit := Nat.testBit_two_pow_mul_add (Bytes.toNat lowest.reverse) x.toNat_lt k
    rw [List.reverse_cons, Bytes.toNat_append_singleton]
    change ∃ b, _ ∧ _ = Nat.testBit (2 ^ 8 * _ + _) k
    rw [hbit]
    rw [List.length_reverse, List.length_cons] at h
    by_cases hk : k < 8
    · refine ⟨x, ?_, ?_⟩
      · have hdiv : k / 8 = 0 := by omega
        simp [hdiv]
      · rw [if_pos hk, Nat.mod_eq_of_lt hk]
    · obtain ⟨b, hb, heq⟩ := ih (k := k - 8) (by rw [List.length_reverse]; omega)
      refine ⟨b, ?_, ?_⟩
      · rw [List.length_reverse] at hb
        rw [List.length_append, List.length_reverse, List.length_singleton,
          List.getElem?_append_left (by rw [List.length_reverse]; omega), ← hb]
        congr 1
        omega
      · rw [if_neg hk, ← heq]
        congr 1
        omega

section Cursor

variable {path : Bytes} (hz : leadingZeros path < path.length)
include hz

theorem goesOn_ofIndex {k : Nat} (hk : k ≤ (Bytes.toNat path).log2) :
    (Place.ofIndex path k).goesOn path = true ↔ k < (Bytes.toNat path).log2 := by
  obtain ⟨htop, hlog⟩ := log2_toNat hz
  have htoplt := log2_byte_lt (path.getD (leadingZeros path) 0)
  have hmask := mask_lt_iff (k % 8) (Nat.mod_lt k (by decide)) _ htoplt
  rw [Place.goesOn, Bool.or_eq_true, decide_eq_true_iff, decide_eq_true_iff, topMask_eq _ htop,
    Place.ofIndex, hmask]
  dsimp only
  omega

theorem next_ofIndex {k : Nat} (hk : k < (Bytes.toNat path).log2) :
    (Place.ofIndex path k).next = some (.ofIndex path (k + 1)) := by
  obtain ⟨_, hlog⟩ := log2_toNat hz
  have htoplt := log2_byte_lt (path.getD (leadingZeros path) 0)
  have hlt : k % 8 < 8 := Nat.mod_lt k (by decide)
  have hfull := mask_eq_iff _ hlt
  rw [Place.next, Place.ofIndex, Place.ofIndex, mask_next _ hlt]
  dsimp only
  by_cases hlast : k % 8 = 7
  · -- a whole byte is done, so it was not the first one with a bit set
    have hbyte : path.length - 1 - k / 8 = path.length - 1 - (k + 1) / 8 + 1 := by omega
    have hmod : (k + 1) % 8 = 0 := by omega
    rw [if_pos (hfull.mpr hlast), hbyte, hmod]
    rfl
  · have hdiv : (k + 1) / 8 = k / 8 := by omega
    have hmod : (k + 1) % 8 = k % 8 + 1 := by omega
    rw [if_neg (hlast ∘ hfull.mp), hdiv, hmod]

theorem bit_ofIndex {k : Nat} (hk : k < (Bytes.toNat path).log2) :
    ∃ b, path[(Place.ofIndex path k).byte]? = some b ∧
      (b.toUInt16 &&& (Place.ofIndex path k).mask = 0 ↔ Bytes.toNat path >>> k % 2 = 0) := by
  obtain ⟨_, hlog⟩ := log2_toNat hz
  have htoplt := log2_byte_lt (path.getD (leadingZeros path) 0)
  obtain ⟨b, hb, hbit⟩ := testBit_toNat (show k < 8 * path.length by omega)
  have hlow := Nat.testBit_shiftRight (i := k) (j := 0) (Bytes.toNat path)
  rw [Nat.testBit_zero, Nat.add_zero] at hlow
  refine ⟨b, hb, ?_⟩
  rw [Place.ofIndex, mask_and_eq_zero_iff b (k % 8) (Nat.mod_lt k (by decide)), hbit, ← hlow,
    decide_eq_false_iff_not]
  omega

theorem scanFrom_last {k : Nat} (hk : k = (Bytes.toNat path).log2) (node : Node) (cost : Cost) :
    scanFrom path (.ofIndex path k) node cost =
      some (walkResponse (Bytes.toNat path >>> k) node cost) := by
  have hdone : ¬ k < (Bytes.toNat path).log2 := by omega
  have hle : Bytes.toNat path >>> k ≤ 1 :=
    Nat.not_lt.mp (hdone ∘ (one_lt_shiftRight_iff _ k).mp)
  rw [walkResponse_of_le_one hle, scanFrom.eq_def,
    if_neg (hdone ∘ (goesOn_ofIndex hz (Nat.le_of_eq hk)).mp)]

/-- From the bit at `k` on, the scan is the walk of what is left of the number
without the bits below. -/
theorem scanFrom_ofIndex {k : Nat} (hk : k ≤ (Bytes.toNat path).log2) (node : Node) (cost : Cost) :
    scanFrom path (.ofIndex path k) node cost =
      some (walkResponse (Bytes.toNat path >>> k) node cost) := by
  induction node generalizing k cost with
  | atom bytes =>
    rcases Nat.lt_or_eq_of_le hk with hlt | heq
    · have hmore := (one_lt_shiftRight_iff (Bytes.toNat path) k).mpr hlt
      rw [walkResponse_atom hmore, scanFrom, if_pos ((goesOn_ofIndex hz hk).mpr hlt)]
    · exact scanFrom_last hz heq _ cost
  | pair first rest ihfirst ihrest =>
    rcases Nat.lt_or_eq_of_le hk with hlt | heq
    · have hmore := (one_lt_shiftRight_iff (Bytes.toNat path) k).mpr hlt
      have hhalf : Bytes.toNat path >>> k / 2 = Bytes.toNat path >>> (k + 1) := rfl
      obtain ⟨b, hb, hbit⟩ := bit_ofIndex hz hlt
      rw [walkResponse_pair hmore, hhalf, scanFrom, if_pos ((goesOn_ofIndex hz hk).mpr hlt),
        next_ofIndex hz hlt, hb]
      dsimp only
      by_cases heven : Bytes.toNat path >>> k % 2 = 0
      · rw [if_pos (hbit.mpr heven), if_pos heven]
        exact ihfirst hlt _
      · rw [if_neg (heven ∘ hbit.mp), if_neg heven]
        exact ihrest hlt _
    · exact scanFrom_last hz heq _ cost

end Cursor

theorem toNat_of_zeros {path : Bytes} (h : leadingZeros path = path.length) :
    Bytes.toNat path = 0 := by
  induction path with
  | nil => exact Bytes.toNat_nil
  | cons b path ih =>
    by_cases hb : b = 0
    · subst hb
      rw [leadingZeros_zero_cons, List.length_cons] at h
      rw [toNat_zero_cons, ih (Nat.succ.inj h)]
    · rw [leadingZeros_cons_of_ne hb] at h
      cases h

theorem scan_eq_lookup (path : Bytes) (env : Node) : scan path env = some (lookup path env) := by
  rw [lookup_eq_walkResponse, scan]
  by_cases hz : leadingZeros path = path.length
  · rw [if_pos hz, toNat_of_zeros hz, walkResponse_of_le_one (Nat.zero_le 1)]
  · have hle : leadingZeros path ≤ path.length := (List.takeWhile_sublist _).length_le
    rw [if_neg hz]
    exact scanFrom_ofIndex (Nat.lt_of_le_of_ne hle hz) (Nat.zero_le _) env _

theorem Visits.exists_index {path : Bytes} {p : Place} (h : Visits path p) :
    leadingZeros path < path.length ∧ ∃ k ≤ (Bytes.toNat path).log2, p = .ofIndex path k := by
  induction h with
  | start hz => exact ⟨hz, 0, Nat.zero_le _, rfl⟩
  | next _ hon hnext ih =>
    obtain ⟨hz, k, hk, rfl⟩ := ih
    have hlt := (goesOn_ofIndex hz hk).mp hon
    rw [next_ofIndex hz hlt] at hnext
    exact ⟨hz, k + 1, hlt, (Option.some.inj hnext).symm⟩

theorem Visits.byte_bounds {path : Bytes} {p : Place} (h : Visits path p) :
    leadingZeros path ≤ p.byte ∧ p.byte < path.length := by
  obtain ⟨hz, k, hk, rfl⟩ := h.exists_index
  obtain ⟨_, hlog⟩ := log2_toNat hz
  have htoplt := log2_byte_lt (path.getD (leadingZeros path) 0)
  rw [Place.ofIndex]
  dsimp only
  omega

theorem bits_sub_one (n : Nat) : Integer.bits n - 1 = n.log2 := by
  by_cases h : n = 0
  · simp [Integer.bits, h]
  · rw [Integer.bits, if_neg h, Nat.add_sub_cancel]

theorem start_cost (zeros legs : Nat) :
    Price.path + Price.pathLeg + UInt64.ofNat zeros * Price.pathZeroByte + UInt64.ofNat (4 * legs) =
      UInt64.ofNat (44 + 4 * zeros + 4 * legs) := by
  have hbase : Price.path + Price.pathLeg = UInt64.ofNat 44 := rfl
  have hzero : Price.pathZeroByte = UInt64.ofNat 4 := rfl
  rw [hbase, hzero, ← UInt64.ofNat_mul, ← UInt64.ofNat_add, ← UInt64.ofNat_add, Nat.mul_comm zeros]

/-- Looking up a path is the walk of the number that its bytes stand for. It
costs four for each zero byte in front and four for each bit below the highest
one. The bytes may as well be read bit by bit, by a place that stays between
the first byte that is not zero and the last one. -/
theorem lookup_is_binary_walk (path : Bytes) (env : Node) :
    let n := Bytes.toNat path
    let cost := 44 + 4 * leadingZeros path + 4 * (Integer.bits n - 1)
    (lookup path env =
      match walk n env with
      | .ok node => .ok ⟨UInt64.ofNat cost, node⟩
      | .error bytes => .error (.fault .pathIntoAtom (.atom bytes))) ∧
    (path.length < wrapLength → (UInt64.ofNat cost).toNat = cost) ∧
    Fault.pathIntoAtom.message = "path into atom" ∧
    scan path env = some (lookup path env) ∧
    ∀ p, Visits path p → leadingZeros path ≤ p.byte ∧ p.byte < path.length := by
  intro n cost
  have hcost : cost = 44 + 4 * leadingZeros path + 4 * n.log2 := by
    simp only [cost, bits_sub_one]
  refine ⟨?_, ?_, rfl, scan_eq_lookup path env, fun p hp => hp.byte_bounds⟩
  · rw [lookup_eq_walkResponse, walkResponse, start_cost, ← hcost]
    rfl
  · intro hlen
    have hle := leadingZeros_add_legs_le path
    rw [legs_eq_lowBits, length_lowBits] at hle
    change leadingZeros path + n.log2 ≤ _ at hle
    rw [wrapLength] at hlen
    apply UInt64.toNat_ofNat_of_lt'
    rw [hcost]
    change _ < 0x10000000000000000
    clear_value n
    omega

theorem lookup_is_binary_walk_two_bytes :
    let path : Bytes := [0, 3, 1]
    let deep : Node := .pair (.pair (.pair (.pair (.pair (.pair (.pair
      (.pair .nil (.atom [99])) .nil) .nil) .nil) .nil) .nil) .nil) .nil
    Bytes.toNat path = 769 ∧ path.length < wrapLength ∧
    lookup path (.pair .nil deep) = .ok ⟨84, .atom [99]⟩ ∧
    lookup path (.pair .nil (.pair (.atom [7]) .nil)) = fault .pathIntoAtom (.atom [7]) ∧
    (84 : Cost).toNat = 84 ∧ Visits path ⟨1, 1⟩ ∧ leadingZeros path ≤ 1 := by
  intro path deep
  have hvisits : ∀ k ≤ 8, Visits path (.ofIndex path k) := by
    have hstep : ∀ k < 8, (Place.ofIndex path k).goesOn path = true ∧
        (Place.ofIndex path k).next = some (.ofIndex path (k + 1)) := by decide
    intro k hk
    induction k with
    | zero => exact .start (by decide)
    | succ k ih =>
      obtain ⟨hon, hnext⟩ := hstep k hk
      exact .next (ih (Nat.le_of_succ_le hk)) hon hnext
  have hn : Bytes.toNat path = 769 := by decide +kernel
  obtain ⟨hdeep, hword, _, _, hbounds⟩ := lookup_is_binary_walk path (.pair .nil deep)
  obtain ⟨hstuck, _⟩ := lookup_is_binary_walk path (.pair .nil (.pair (.atom [7]) .nil))
  have hlen : path.length < wrapLength := by decide
  rw [hn] at hdeep hword hstuck
  exact ⟨hn, hlen, hdeep, hstuck, hword hlen, hvisits 8 (by decide), (hbounds _ (hvisits 8 (by decide))).1⟩

end Path

end MeteredTree

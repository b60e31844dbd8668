import MeteredTree.Bytes

/-! Integers written in atoms. An atom is read as a signed big-endian
two's-complement number of any length, and the empty atom is zero. Writing
takes the fewest bytes that read back. -/

namespace MeteredTree.Integer

def ofBytes (b : Bytes) : Int :=
  match b with
  | [] => 0
  | top :: _ =>
    if top < 128 then Bytes.toNat b else (Bytes.toNat b : Int) - Bytes.capacity b.length

/-- A word of which every bit is the sign bit of `b`. -/
def signWord (b : Bytes) : Int64 :=
  match b with
  | [] => 0
  | top :: _ => if top &&& 0x80 = 0 then 0 else -1

def shiftIn (v : Int64) (x : UInt8) : Int64 :=
  v <<< 8 ||| x.toUInt64.toInt64

/-- The signed value of a few bytes: they are shifted into a word of sign
bits one after the other. -/
def ofFewBytes (b : Bytes) : Int64 :=
  b.foldl shiftIn (signWord b)

def bits (n : Nat) : Nat :=
  if n = 0 then 0 else n.log2 + 1

/-- The fewest bytes, but at least one, in which a two's-complement form has
room for `v` and its sign. -/
def width : Int → Nat
  | .ofNat n => bits n / 8 + 1
  | .negSucc n => bits n / 8 + 1

/-- The two's-complement form of `v` in `width v` bytes. -/
def signedBytes (v : Int) : Bytes :=
  Bytes.ofNat (width v) (v % Bytes.capacity (width v)).toNat

/-- The fewest bytes whose signed value is `v`. -/
def toBytes (v : Int) : Bytes :=
  if v = 0 then [] else signedBytes v

def limbs (v : Int) : Nat :=
  (bits v.natAbs + 7) / 8

/-- The absolute value in the fewest bytes, but at least one. -/
def magnitude (v : Int) : Bytes :=
  Bytes.ofNat (max 1 (limbs v)) v.natAbs

/-- Shifts left by a nonnegative amount, and right, toward negative
infinity, by a negative one. -/
def shift (v : Int) (amount : Int) : Int :=
  match amount with
  | .ofNat n => v * Nat.pow 2 n
  | .negSucc n => v / Nat.pow 2 (n + 1)

def not (v : Int) : Int := -v - 1

/-- The bitwise operations are those of the infinite two's-complement forms.
A negative number is the complement of a natural number, so each case is one
on natural numbers. -/
def and : Int → Int → Int
  | .ofNat m, .ofNat n => .ofNat (m &&& n)
  | .ofNat m, .negSucc n => .ofNat (m ^^^ (m &&& n))
  | .negSucc m, .ofNat n => .ofNat (n ^^^ (n &&& m))
  | .negSucc m, .negSucc n => .negSucc (m ||| n)

def or : Int → Int → Int
  | .ofNat m, .ofNat n => .ofNat (m ||| n)
  | .ofNat m, .negSucc n => .negSucc (n ^^^ (n &&& m))
  | .negSucc m, .ofNat n => .negSucc (m ^^^ (m &&& n))
  | .negSucc m, .negSucc n => .negSucc (m &&& n)

def xor : Int → Int → Int
  | .ofNat m, .ofNat n => .ofNat (m ^^^ n)
  | .ofNat m, .negSucc n => .negSucc (m ^^^ n)
  | .negSucc m, .ofNat n => .negSucc (m ^^^ n)
  | .negSucc m, .negSucc n => .ofNat (m ^^^ n)

end MeteredTree.Integer

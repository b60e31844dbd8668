import MeteredTree.Bytes

/-! The length field of the wire form. The first byte holds as many leading
ones as the field has bytes; its other bits and the following bytes are the
length. Writing takes the shortest field, reading takes any. -/

namespace MeteredTree

inductive WireError
  /-- The input ends early or is malformed. -/
  | badEncoding
  /-- The length of an atom is past the ceiling. -/
  | tooLarge
  /-- The sink has no room left. -/
  | sinkFull
  deriving DecidableEq

namespace WireError

/-- What a full sink reports of itself. -/
def sinkFullText : String := "failed to write whole buffer"

def message : WireError → String
  | .badEncoding => "bad encoding"
  | .tooLarge => "blob too large"
  | .sinkFull => "io error: " ++ sinkFullText

end WireError

namespace Wire

/-- Atoms have fewer bytes than this. -/
def atomCeiling : Nat := 0x400000000

def pairMark : UInt8 := 0xff

def emptyMark : UInt8 := 0x80

/-- Bytes up to this one stand for themselves. -/
def lastPlainByte : UInt8 := 0x7f

/-- The shortest length field for an atom of `n` bytes. -/
def sizeField (n : Nat) : Except WireError Bytes :=
  if n < 0x40 then .ok (Bytes.ofNat 1 (0x80 + n))
  else if n < 0x2000 then .ok (Bytes.ofNat 2 (0xc000 + n))
  else if n < 0x100000 then .ok (Bytes.ofNat 3 (0xe00000 + n))
  else if n < 0x8000000 then .ok (Bytes.ofNat 4 (0xf0000000 + n))
  else if n < atomCeiling then .ok (Bytes.ofNat 5 (0xf800000000 + n))
  else .error .tooLarge

/-- The number of leading ones of a byte between 80 and fe. -/
def leadingOnes (b : UInt8) : Nat :=
  if b < 0xc0 then 1
  else if b < 0xe0 then 2
  else if b < 0xf0 then 3
  else if b < 0xf8 then 4
  else if b < 0xfc then 5
  else if b < 0xfe then 6
  else 7

/-- Takes exactly `n` bytes off the input. -/
def takeExact (n : Nat) (input : Bytes) : Except WireError (Bytes × Bytes) :=
  let (front, rest) := input.splitAt n
  if front.length < n then .error .badEncoding else .ok (front, rest)

/-- The length whose field starts with `b` and goes on in the input, and the
input after the field. -/
def readSize (b : UInt8) (input : Bytes) : Except WireError (Nat × Bytes) := do
  let extra := leadingOnes b - 1
  let (low, rest) ← takeExact extra input
  let n := b.toNat % Nat.pow 2 (6 - extra) * Bytes.capacity extra + Bytes.toNat low
  if n < atomCeiling then .ok (n, rest) else .error .tooLarge

theorem takeExact_length {n : Nat} {input front rest : Bytes}
    (h : takeExact n input = .ok (front, rest)) : rest.length ≤ input.length := by
  rw [takeExact, List.splitAt_eq] at h
  dsimp only at h
  split at h
  · cases h
  · cases h
    simp

theorem readSize_length {b : UInt8} {input rest : Bytes} {n : Nat}
    (h : readSize b input = .ok (n, rest)) : rest.length ≤ input.length := by
  rw [readSize] at h
  cases ht : takeExact (leadingOnes b - 1) input with
  | error e => rw [ht] at h; cases h
  | ok p =>
    rw [ht] at h
    have hp := takeExact_length ht
    dsimp only [bind, Except.bind] at h
    split at h
    · cases h
      exact hp
    · cases h

end Wire

end MeteredTree

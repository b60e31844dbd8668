import MeteredTree.Bytes

/-! Hexadecimal text. Bytes are written as two lower-case digits each; digits
of either case are read. -/

namespace MeteredTree.Hex

def digit (n : UInt8) : Char :=
  if n < 10 then Char.ofNat (48 + n.toNat) else Char.ofNat (87 + n.toNat)

def encode (b : Bytes) : String :=
  b.foldl (fun s x => (s.push (digit (x / 16))).push (digit (x % 16))) ""

inductive Error
  | oddLength
  | badDigit (byte : UInt8) (position : Nat)
  deriving DecidableEq

def value? (c : UInt8) : Option UInt8 :=
  if 48 ≤ c && c ≤ 57 then some (c - 48)
  else if 65 ≤ c && c ≤ 70 then some (c - 55)
  else if 97 ≤ c && c ≤ 102 then some (c - 87)
  else none

def readDigit (c : UInt8) (position : Nat) : Except Error UInt8 :=
  match value? c with
  | some v => .ok v
  | none => .error (.badDigit c position)

/-- Reads pairs of digits from `position` on, with the bytes read so far in
reverse. -/
def readPairs : Bytes → Nat → Bytes → Except Error Bytes
  | high :: low :: rest, position, done => do
    let h ← readDigit high position
    let l ← readDigit low (position + 1)
    readPairs rest (position + 2) ((16 * h + l) :: done)
  | _, _, done => .ok done.reverse

/-- The bytes that a text of hexadecimal digits stands for. The text is given
as its bytes; an odd number of them is reported before any bad digit. -/
def decode (text : Bytes) : Except Error Bytes :=
  if text.length % 2 = 1 then .error .oddLength else readPairs text 0 []

end MeteredTree.Hex

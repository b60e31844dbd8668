import MeteredTree.Hex

/-! Bytes given on the command line in hexadecimal, with blanks around them
and a mark in front allowed. -/

namespace MeteredTree.CommandLine

def isBlank (c : Char) : Bool :=
  let n := c.toNat
  (9 ≤ n && n ≤ 13) || n == 0x20 || n == 0x85 || n == 0xa0 || n == 0x1680 ||
    (0x2000 ≤ n && n ≤ 0x200a) || n == 0x2028 || n == 0x2029 || n == 0x202f ||
    n == 0x205f || n == 0x3000

/-- The text without the blanks at both ends. -/
def trimBlanks (cs : List Char) : List Char :=
  ((cs.dropWhile isBlank).reverse.dropWhile isBlank).reverse

/-- The text without one mark for hexadecimal in front. -/
def dropMark : List Char → List Char
  | '0' :: 'x' :: rest => rest
  | cs => cs

/-- A byte as the character of that number in quotes; what cannot be printed
is escaped. -/
def quoted (b : UInt8) : String :=
  let text :=
    match b with
    | 0x00 => "\\0"
    | 0x09 => "\\t"
    | 0x0a => "\\n"
    | 0x0d => "\\r"
    | 0x27 => "\\'"
    | 0x5c => "\\\\"
    | _ =>
      if b < 0x20 || (0x7f ≤ b && b ≤ 0xa0) || b == 0xad then
        "\\u\x7b" ++ String.ofList (Nat.toDigits 16 b.toNat) ++ "\x7d"
      else (Char.ofNat b.toNat).toString
  "'" ++ text ++ "'"

def hexMessage : Hex.Error → String
  | .oddLength => "Odd number of digits"
  | .badDigit byte position =>
    "Invalid character " ++ quoted byte ++ " at position " ++ toString position

/-- The bytes that an argument stands for. -/
def hexBytes (s : String) : Except Hex.Error Bytes :=
  Hex.decode (String.ofList (dropMark (trimBlanks s.toList))).toUTF8.toList

end MeteredTree.CommandLine

import MeteredTree.Bytes

/-! The names of the built-in operators: the keyword by which people write an
operator and the one-byte opcode by which programs hold it. -/

namespace MeteredTree

inductive Primitive
  | choose | cons | first | rest | isPair | raise | equal
  | greaterBytes | sha256 | substr | strlen | concat
  | add | subtract | multiply | divide | divmod | greater | ash | lsh
  | logand | logior | logxor | lognot
  | pointAdd | publicKey
  | not | any | all
  | softfork
  deriving DecidableEq

namespace Primitive

def list : List Primitive :=
  [.choose, .cons, .first, .rest, .isPair, .raise, .equal,
   .greaterBytes, .sha256, .substr, .strlen, .concat,
   .add, .subtract, .multiply, .divide, .divmod, .greater, .ash, .lsh,
   .logand, .logior, .logxor, .lognot,
   .pointAdd, .publicKey,
   .not, .any, .all,
   .softfork]

def keyword : Primitive → String
  | .choose => "i"
  | .cons => "c"
  | .first => "f"
  | .rest => "r"
  | .isPair => "l"
  | .raise => "x"
  | .equal => "="
  | .greaterBytes => ">s"
  | .sha256 => "sha256"
  | .substr => "substr"
  | .strlen => "strlen"
  | .concat => "concat"
  | .add => "+"
  | .subtract => "-"
  | .multiply => "*"
  | .divide => "/"
  | .divmod => "divmod"
  | .greater => ">"
  | .ash => "ash"
  | .lsh => "lsh"
  | .logand => "logand"
  | .logior => "logior"
  | .logxor => "logxor"
  | .lognot => "lognot"
  | .pointAdd => "point_add"
  | .publicKey => "pubkey_for_exp"
  | .not => "not"
  | .any => "any"
  | .all => "all"
  | .softfork => "softfork"

def opcode : Primitive → UInt8
  | .choose => 0x03
  | .cons => 0x04
  | .first => 0x05
  | .rest => 0x06
  | .isPair => 0x07
  | .raise => 0x08
  | .equal => 0x09
  | .greaterBytes => 0x0a
  | .sha256 => 0x0b
  | .substr => 0x0c
  | .strlen => 0x0d
  | .concat => 0x0e
  | .add => 0x10
  | .subtract => 0x11
  | .multiply => 0x12
  | .divide => 0x13
  | .divmod => 0x14
  | .greater => 0x15
  | .ash => 0x16
  | .lsh => 0x17
  | .logand => 0x18
  | .logior => 0x19
  | .logxor => 0x1a
  | .lognot => 0x1b
  | .pointAdd => 0x1d
  | .publicKey => 0x1e
  | .not => 0x20
  | .any => 0x21
  | .all => 0x22
  | .softfork => 0x24

/-- The primitives on trees and byte equality, without which no program gets
far. -/
def isCore : Primitive → Bool
  | .choose | .cons | .first | .rest | .isPair | .raise | .equal => true
  | _ => false

def ofOpcode? (b : UInt8) : Option Primitive :=
  list.find? fun p => p.opcode == b

def ofKeyword? (k : String) : Option Primitive :=
  list.find? fun p => p.keyword == k

end Primitive

namespace Opcode

/-- The opcode of the form that returns its operands as they stand. -/
def quote : UInt8 := 0x01

/-- The opcode of the form that enters a program given as a value. -/
def apply : UInt8 := 0x02

def keywords : List (String × UInt8) :=
  ("q", quote) :: ("a", apply) :: Primitive.list.map fun p => (p.keyword, p.opcode)

/-- The operator atom that a keyword stands for. -/
def ofKeyword? (k : String) : Option Bytes :=
  (keywords.find? fun entry => entry.1 == k).map fun entry => [entry.2]

/-- The keyword of an operator atom. -/
def keyword? : Bytes → Option String
  | [b] => (keywords.find? fun entry => entry.2 == b).map Prod.fst
  | _ => none

end Opcode

end MeteredTree

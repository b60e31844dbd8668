import MeteredTree.Operator.Arithmetic
import MeteredTree.Operator.Bitwise
import MeteredTree.Operator.Points
import MeteredTree.Operator.Strings
import MeteredTree.Operator.Trees
import MeteredTree.Operator.Unknown

/-! Tables of operators. A table says which opcodes quote and apply, which
function each other opcode stands for, and what becomes of all the rest. -/

namespace MeteredTree

/-- What a primitive does to its arguments. -/
def Primitive.eval (group : Option PointGroup) : Primitive → Node → Response
  | .choose => Operator.choose
  | .cons => Operator.cons
  | .first => Operator.first
  | .rest => Operator.rest
  | .isPair => Operator.isPair
  | .raise => Operator.raise
  | .equal => Operator.equal
  | .greaterBytes => Operator.greaterBytes
  | .sha256 => Operator.sha256
  | .substr => Operator.substr
  | .strlen => Operator.strlen
  | .concat => Operator.concat
  | .add => Operator.add
  | .subtract => Operator.subtract
  | .multiply => Operator.multiply
  | .divide => Operator.divide
  | .divmod => Operator.divmod
  | .greater => Operator.greater
  | .ash => Operator.ash
  | .lsh => Operator.lsh
  | .logand => Operator.logand
  | .logior => Operator.logior
  | .logxor => Operator.logxor
  | .lognot => Operator.lognot
  | .pointAdd => Operator.pointAdd group
  | .publicKey => Operator.publicKey group
  | .not => Operator.not
  | .any => Operator.any
  | .all => Operator.all
  | .softfork => Operator.softfork

structure OperatorTable where
  quote : UInt8
  apply : UInt8
  /-- The function of an opcode, from the arguments to the response. -/
  entry : UInt8 → Option (Node → Response)
  /-- What becomes of an operator without an entry, given its arguments. -/
  fallback : Node → Node → Response

namespace OperatorTable

/-- No entries: every operator is unknown. -/
def empty : OperatorTable where
  quote := Opcode.quote
  apply := Opcode.apply
  entry _ := none
  fallback := Operator.unknown

/-- Entries for the primitives that are kept. -/
def ofPrimitives (group : Option PointGroup) (keep : Primitive → Bool) : OperatorTable :=
  { empty with
    entry := fun b => ((Primitive.ofOpcode? b).filter keep).map (Primitive.eval group) }

def core (group : Option PointGroup) : OperatorTable :=
  ofPrimitives group Primitive.isCore

/-- Every primitive that is not in the core. -/
def extended (group : Option PointGroup) : OperatorTable :=
  ofPrimitives group fun p => !p.isCore

/-- Takes the entries that are missing from another table. -/
def merge (t other : OperatorTable) : OperatorTable :=
  { t with entry := fun b => (t.entry b).or (other.entry b) }

/-- Every primitive; unknown operators are charged and ignored. -/
def standard (group : Option PointGroup) : OperatorTable :=
  (core group).merge (extended group)

/-- Every primitive; unknown operators are rejected. -/
def strict (group : Option PointGroup) : OperatorTable :=
  { standard group with fallback := Operator.unimplemented }

def insert (t : OperatorTable) (opcode : UInt8) (f : Node → Response) : OperatorTable :=
  { t with entry := fun b => if b = opcode then some f else t.entry b }

def erase (t : OperatorTable) (opcode : UInt8) : OperatorTable :=
  { t with entry := fun b => if b = opcode then none else t.entry b }

/-- The function of an operator atom; only atoms of one byte have one. -/
def get? (t : OperatorTable) : Bytes → Option (Node → Response)
  | [b] => t.entry b
  | _ => none

def opcodes (t : OperatorTable) : Bytes :=
  ((List.range 256).map UInt8.ofNat).filter fun b => (t.entry b).isSome

def eval (t : OperatorTable) (operator args : Node) : Response :=
  match operator with
  | .atom bytes =>
    match t.get? bytes with
    | some f => f args
    | none => t.fallback operator args
  | .pair _ _ => t.fallback operator args

end OperatorTable

end MeteredTree

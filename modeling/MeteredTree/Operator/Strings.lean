import MeteredTree.Hash.Sha256
import MeteredTree.Operator.Arguments

/-! Operators on byte strings: length, slices, concatenation, order, hash. -/

namespace MeteredTree.Operator

def strlen (args : Node) : Response := do
  let a ← Arguments.one (.primitive .strlen) args
  let bytes ← Arguments.atom (.primitive .strlen) a
  return .newInteger (Price.strlen.plain 0 bytes.length) bytes.length

/-- The bytes of `s` from `start` to before `stop`. -/
def slice (args : Node) (s : Bytes) (start stop : Int) : Response :=
  if start < 0 ∨ stop < start ∨ s.length < stop then fault .substrIndices args
  else .ok ⟨Price.substr, .atom ((s.drop start.toNat).take (stop - start).toNat)⟩

/-- A slice, up to the end if only its start is given. It is not charged for
its bytes. -/
def substr (args : Node) : Response :=
  match args.items with
  | [a, i] => do
    let s ← Arguments.atom (.primitive .substr) a
    let start ← Arguments.smallInteger (.primitive .substr) i
    slice args s start s.length
  | [a, i, j] => do
    let s ← Arguments.atom (.primitive .substr) a
    let start ← Arguments.smallInteger (.primitive .substr) i
    let stop ← Arguments.smallInteger (.primitive .substr) j
    slice args s start stop
  | _ => fault .substrCount args

def concat (args : Node) : Response := do
  let xs ← Arguments.atoms (.primitive .concat) args
  return .newAtom (Price.concat.ofAtoms xs) xs.flatten

def greaterBytes (args : Node) : Response := do
  let (a, b) ← Arguments.twoAtoms (.primitive .greaterBytes) args
  return ⟨Price.greaterBytes.plain 0 (a.length + b.length), .ofBool (Bytes.less b a)⟩

/-- The hash of all arguments as one message. It is not charged for its
bytes. -/
def sha256 (args : Node) : Response := do
  let xs ← Arguments.atoms (.primitive .sha256) args
  return ⟨Price.sha256.ofAtoms xs, .atom (Sha256.hash xs.flatten)⟩

end MeteredTree.Operator

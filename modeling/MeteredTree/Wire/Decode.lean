import MeteredTree.Node
import MeteredTree.Wire.Size

/-! Reading a node in wire form. What is still to be read stands on a stack
beside the values read so far, so the depth of the tree does not matter.
Bytes after the node are left over and not looked at. -/

namespace MeteredTree

namespace Wire

/-- The atom that starts with `b`, which is not the mark of a pair, and the
input after it. -/
def readAtom (b : UInt8) (input : Bytes) : Except WireError (Bytes × Bytes) := do
  if b = emptyMark then
    .ok ([], input)
  else if b ≤ lastPlainByte then
    .ok ([b], input)
  else
    let (n, rest) ← readSize b input
    takeExact n rest

theorem readAtom_length {b : UInt8} {input bytes rest : Bytes}
    (h : readAtom b input = .ok (bytes, rest)) : rest.length ≤ input.length := by
  rw [readAtom] at h
  split at h
  · cases h; exact Nat.le_refl _
  · split at h
    · cases h; exact Nat.le_refl _
    · cases hs : readSize b input with
      | error e => rw [hs] at h; cases h
      | ok p =>
        rw [hs] at h
        exact Nat.le_trans (takeExact_length h) (readSize_length hs)

/-- What is still to be done while reading. -/
inductive Reading
  /-- Read a node. -/
  | node
  /-- Make a pair of the two latest values. -/
  | pair
  deriving DecidableEq

/-- Works off a stack of readings; `values` holds the latest value first. -/
def readNodes : List Reading → List Node → Bytes → Except WireError (Node × Bytes)
  | [], value :: _, input => .ok (value, input)
  | [], [], _ => .error .badEncoding
  | .pair :: todo, rest :: first :: values, input =>
    readNodes todo (.pair first rest :: values) input
  | .pair :: _, [_], _ => .error .badEncoding
  | .pair :: _, [], _ => .error .badEncoding
  | .node :: _, _, [] => .error .badEncoding
  | .node :: todo, values, b :: input =>
    if b = pairMark then readNodes (.node :: .node :: .pair :: todo) values input
    else match h : readAtom b input with
      | .ok (bytes, rest) =>
        have := readAtom_length h
        readNodes todo (.atom bytes :: values) rest
      | .error e => .error e
termination_by todo _ input => 3 * input.length + todo.length
decreasing_by
  · simp
  · simp; omega
  · simp only [List.length_cons]; omega

end Wire

namespace Node

/-- The node at the start of the input, and the input after it. -/
def read (input : Bytes) : Except WireError (Node × Bytes) :=
  Wire.readNodes [.node] [] input

def decode (input : Bytes) : Except WireError Node :=
  (read input).map Prod.fst

end Node

end MeteredTree

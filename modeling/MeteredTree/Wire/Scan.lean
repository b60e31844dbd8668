import MeteredTree.Wire.Size

/-! Finding where a node ends without building it. The scan counts the nodes
that are still to come and skips over the bytes of atoms. -/

namespace MeteredTree.Wire

/-- The input after the atom that starts with `b`. -/
def skipAtom (b : UInt8) (input : Bytes) : Except WireError Bytes := do
  if b = emptyMark ∨ b ≤ lastPlainByte then
    .ok input
  else
    let (n, rest) ← readSize b input
    let (_, rest) ← takeExact n rest
    .ok rest

theorem skipAtom_length {b : UInt8} {input rest : Bytes}
    (h : skipAtom b input = .ok rest) : rest.length ≤ input.length := by
  rw [skipAtom] at h
  split at h
  · cases h; exact Nat.le_refl _
  · cases hs : readSize b input with
    | error e => rw [hs] at h; cases h
    | ok p =>
      rw [hs] at h
      cases ht : takeExact p.1 p.2 with
      | error e => simp only [bind, Except.bind, ht] at h; cases h
      | ok q =>
        simp only [bind, Except.bind, ht] at h
        cases h
        exact Nat.le_trans (takeExact_length ht) (readSize_length hs)

/-- The input after `count` nodes. -/
def skipNodes : Nat → Bytes → Except WireError Bytes
  | 0, input => .ok input
  | _ + 1, [] => .error .badEncoding
  | count + 1, b :: input =>
    if b = pairMark then skipNodes (count + 2) input
    else match h : skipAtom b input with
      | .ok rest =>
        have := skipAtom_length h
        skipNodes count rest
      | .error e => .error e
termination_by _ input => input.length
decreasing_by
  · simp
  · simp only [List.length_cons]; omega

/-- The number of bytes that the node at the start of the input takes. -/
def nodeLength (input : Bytes) : Except WireError Nat :=
  (skipNodes 1 input).map fun rest => input.length - rest.length

/-- The bytes of the node at the start of the input, and the rest. -/
def splitNode (input : Bytes) : Except WireError (Bytes × Bytes) :=
  (nodeLength input).map fun n => input.splitAt n

end MeteredTree.Wire

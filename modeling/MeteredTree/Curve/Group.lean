import MeteredTree.Bytes

/-! A group of points as operators see it: a fixed generator of known order,
addition, multiples, and a compressed form in bytes. -/

namespace MeteredTree

inductive PointError
  | notLoaded
  /-- The compressed form has the wrong number of bytes. -/
  | invalidLength (expected actual : Nat)
  | invalidPoint
  deriving DecidableEq

def PointError.message : PointError → String
  | .notLoaded => "module not loaded"
  | .invalidLength expected actual => s!"expected {expected} bytes, got {actual}"
  | .invalidPoint => "invalid G1 point"

structure PointGroup where
  Point : Type
  identity : Point
  generator : Point
  order : Nat
  add : Point → Point → Point
  /-- The sum of so many copies of a point. -/
  scale : Nat → Point → Point
  compress : Point → Bytes
  /-- The point that as many bytes as a compressed form has stand for. -/
  decode? : Bytes → Option Point

namespace PointGroup

def compressedLength : Nat := 48

/-- Reads a compressed point. The number of bytes is checked first. -/
def decompress (g : PointGroup) (bytes : Bytes) : Except PointError g.Point :=
  if bytes.length ≠ compressedLength then
    .error (.invalidLength compressedLength bytes.length)
  else match g.decode? bytes with
    | some p => .ok p
    | none => .error .invalidPoint

section

variable {g : PointGroup} {bytes : Bytes}

theorem decompress_eq_ok_iff {p : g.Point} :
    g.decompress bytes = .ok p ↔ bytes.length = compressedLength ∧ g.decode? bytes = some p := by
  by_cases hlength : bytes.length = compressedLength
  · rw [decompress, if_neg (not_not_intro hlength)]
    cases g.decode? bytes <;> simp [hlength]
  · simp [decompress, hlength]

theorem decompress_eq_invalidLength_iff :
    g.decompress bytes = .error (.invalidLength compressedLength bytes.length) ↔
      bytes.length ≠ compressedLength := by
  by_cases hlength : bytes.length = compressedLength
  · rw [decompress, if_neg (not_not_intro hlength)]
    cases g.decode? bytes <;> simp [hlength]
  · simp [decompress, hlength]

end

/-- The multiple of the generator by an exponent, which wraps around at the
order. -/
def ofExponent (g : PointGroup) (n : Nat) : g.Point :=
  g.scale (n % g.order) g.generator

/-- The multiple by a number that is given as big-endian bytes. -/
def ofScalar (g : PointGroup) (bytes : Bytes) : g.Point :=
  g.ofExponent (Bytes.toNat bytes)

def sum (g : PointGroup) (points : List Bytes) : Except PointError g.Point :=
  points.foldlM (fun total bytes => (g.decompress bytes).map (g.add total)) g.identity

end PointGroup

end MeteredTree

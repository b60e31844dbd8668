import MeteredTree.Node
import MeteredTree.Hex
import MeteredTree.Wire.Size

/-! Writing a node in wire form. A pair is its mark followed by its first and
its rest; an atom is itself, or a length field and its bytes. The nodes still
to be written stand on a worklist, so the depth of the tree does not matter. -/

namespace MeteredTree

/-- Where bytes are written: what is stored so far, and the room in all. -/
structure Sink where
  stored : Array UInt8
  capacity : Option Nat

namespace Sink

def unbounded : Sink := ⟨#[], none⟩

def bounded (capacity : Nat) : Sink := ⟨#[], some capacity⟩

/-- Stores what fits of one chunk; it fails if not all of it does. -/
def write (s : Sink) (chunk : Bytes) : Sink × Except WireError Unit :=
  match s.capacity with
  | none => ({ s with stored := s.stored ++ chunk }, .ok ())
  | some capacity =>
    let room := capacity - s.stored.size
    ({ s with stored := s.stored ++ chunk.take room },
      if chunk.length ≤ room then .ok () else .error .sinkFull)

/-- Writes one chunk after another up to the first that fails. -/
def writeAll (s : Sink) : List Bytes → Sink × Except WireError Unit
  | [] => (s, .ok ())
  | chunk :: chunks =>
    match s.write chunk with
    | (s, .ok ()) => s.writeAll chunks
    | (s, .error e) => (s, .error e)

end Sink

namespace Wire

/-- The chunks in which an atom is written. -/
def atomChunks (bytes : Bytes) : Except WireError (List Bytes) :=
  match bytes with
  | [] => .ok [[emptyMark]]
  | [b] => if b ≤ lastPlainByte then .ok [[b]] else (sizeField 1).map fun field => [field, [b]]
  | _ => (sizeField bytes.length).map fun field => [field, bytes]

def writeAtom (s : Sink) (bytes : Bytes) : Sink × Except WireError Unit :=
  match atomChunks bytes with
  | .ok chunks => s.writeAll chunks
  | .error e => (s, .error e)

/-- Writes the nodes of a worklist, the first of them first. -/
def writeNodes : List Node → Sink → Sink × Except WireError Unit
  | [], s => (s, .ok ())
  | .atom bytes :: todo, s =>
    match writeAtom s bytes with
    | (s, .ok ()) => writeNodes todo s
    | (s, .error e) => (s, .error e)
  | .pair first rest :: todo, s =>
    match s.write [pairMark] with
    | (s, .ok ()) => writeNodes (first :: rest :: todo) s
    | (s, .error e) => (s, .error e)
termination_by todo => Node.totalSize todo
decreasing_by
  · simp [Node.totalSize, Node.size]
  · simp only [Node.totalSize, Node.size]; omega

end Wire

namespace Node

def writeTo (n : Node) (s : Sink) : Sink × Except WireError Unit :=
  Wire.writeNodes [n] s

def encode (n : Node) : Except WireError Bytes :=
  match n.writeTo .unbounded with
  | (s, .ok ()) => .ok s.stored.toList
  | (_, .error e) => .error e

/-- The text that stands for a node in messages. -/
def describe (n : Node) : String :=
  match n.encode with
  | .ok bytes => "Node(" ++ Hex.encode bytes ++ ")"
  | .error _ => "Node(<unserializable>)"

end Node

end MeteredTree

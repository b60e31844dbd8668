import MeteredTree.Bytes

/-! Binary trees with byte strings at the leaves. Programs, environments and
results are all of this one type. A list is a chain of pairs along the rest,
and the empty atom ends it. -/

namespace MeteredTree

inductive Node
  | atom (bytes : Bytes)
  | pair (first rest : Node)
  deriving DecidableEq

namespace Node

/-- The empty atom: false, and the end of a list. -/
def nil : Node := .atom []

/-- The atom that operators give for true. -/
def one : Node := .atom [1]

def ofBool (b : Bool) : Node := if b then one else nil

def isAtom : Node → Bool
  | .atom _ => true
  | .pair _ _ => false

def isPair : Node → Bool
  | .atom _ => false
  | .pair _ _ => true

/-- Only the empty atom is false. -/
def isNil : Node → Bool
  | .atom bytes => bytes.isEmpty
  | .pair _ _ => false

def size : Node → Nat
  | .atom _ => 1
  | .pair first rest => 1 + first.size + rest.size

def ofList (items : List Node) : Node :=
  items.foldr pair nil

/-- Collects items along the rest in reverse. -/
def itemsOnto : Node → List Node → List Node
  | .atom _, done => done
  | .pair first rest, done => itemsOnto rest (first :: done)

/-- The items of a list: the firsts of the pairs along the rest, up to the
first atom there. -/
def items (n : Node) : List Node :=
  (itemsOnto n []).reverse

/-- The atom at which the chain along the rest ends. -/
def terminator : Node → Bytes
  | .atom bytes => bytes
  | .pair _ rest => rest.terminator

theorem itemsOnto_eq (n : Node) (done : List Node) :
    n.itemsOnto done = (n.itemsOnto []) ++ done := by
  induction n generalizing done with
  | atom => rfl
  | pair first rest _ ih =>
    rw [itemsOnto, itemsOnto, ih (first :: done), ih [first], List.append_assoc]
    rfl

@[simp] theorem items_atom (bytes : Bytes) : (atom bytes).items = [] := rfl

@[simp] theorem items_pair (first rest : Node) :
    (pair first rest).items = first :: rest.items := by
  rw [items, itemsOnto, itemsOnto_eq, List.reverse_append]
  rfl

@[simp] theorem items_ofList (items : List Node) : (ofList items).items = items := by
  induction items with
  | nil => rfl
  | cons a as ih => simp [ofList] at ih ⊢; exact ih

/-- The leaves and pairs of all the nodes in a list. -/
def totalSize : List Node → Nat
  | [] => 0
  | n :: nodes => n.size + totalSize nodes

/-- Compares pending pairs of nodes, the latest first. -/
def samePending : List (Node × Node) → Bool
  | [] => true
  | (.atom x, .atom y) :: pending => if x = y then samePending pending else false
  | (.pair a b, .pair c d) :: pending => samePending ((a, c) :: (b, d) :: pending)
  | (.atom _, .pair _ _) :: _ => false
  | (.pair _ _, .atom _) :: _ => false
termination_by pending => totalSize (pending.map Prod.fst)
decreasing_by
  · simp [totalSize, size]
  · simp only [totalSize, size, List.map_cons]; omega

/-- Structural equality, decided with a worklist so that the depth of the
trees does not matter. -/
def same (a b : Node) : Bool :=
  samePending [(a, b)]

end Node

end MeteredTree

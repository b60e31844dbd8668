import MeteredTree.Operator.Table

/-! Tables of what is built in. A dialect chooses primitives and opcodes as
data, and the table that it stands for depends on the point group alone. -/

namespace MeteredTree

/-- The opcodes that quote and apply, the primitives with their opcodes, and
whether all other operators are rejected. -/
structure Dialect where
  quote : UInt8
  apply : UInt8
  primitive? : UInt8 → Option Primitive
  strict : Bool

namespace Dialect

def table (d : Dialect) (group : Option PointGroup) : OperatorTable where
  quote := d.quote
  apply := d.apply
  entry b := (d.primitive? b).map (Primitive.eval group)
  fallback := if d.strict then Operator.unimplemented else Operator.unknown

@[simp] theorem quote_table (d : Dialect) (group : Option PointGroup) :
    (d.table group).quote = d.quote := rfl

@[simp] theorem apply_table (d : Dialect) (group : Option PointGroup) :
    (d.table group).apply = d.apply := rfl

/-- Every primitive under its own opcode. -/
def complete (strict : Bool) : Dialect :=
  ⟨Opcode.quote, Opcode.apply, Primitive.ofOpcode?, strict⟩

theorem entry_standard (group : Option PointGroup) (b : UInt8) :
    (OperatorTable.standard group).entry b =
      (Primitive.ofOpcode? b).map (Primitive.eval group) := by
  change (Option.map _ _).or (Option.map _ _) = _
  cases Primitive.ofOpcode? b with
  | none => rfl
  | some p =>
    by_cases hp : p.isCore = true
    · simp [Option.filter, hp]
    · simp [Option.filter, hp]

theorem table_complete (group : Option PointGroup) (strict : Bool) :
    (complete strict).table group =
      if strict then OperatorTable.strict group else OperatorTable.standard group := by
  have hentry : (OperatorTable.standard group).entry =
      fun b => (Primitive.ofOpcode? b).map (Primitive.eval group) :=
    funext (entry_standard group)
  cases strict with
  | false =>
    change _ = { OperatorTable.standard group with entry := (OperatorTable.standard group).entry }
    rw [hentry]
    rfl
  | true =>
    change _ = { OperatorTable.strict group with entry := (OperatorTable.standard group).entry }
    rw [hentry]
    rfl

/-- Every table whose functions are all built in is that of a dialect. -/
theorem exists_table_eq {group : Option PointGroup} {t : OperatorTable}
    (hentry : ∀ b f, t.entry b = some f → ∃ p, f = Primitive.eval group p)
    (hfallback : t.fallback = Operator.unknown ∨ t.fallback = Operator.unimplemented) :
    ∃ d : Dialect, d.table group = t := by
  have hprimitive : ∀ b, ∃ p : Option Primitive, p.map (Primitive.eval group) = t.entry b := by
    intro b
    cases hb : t.entry b with
    | none => exact ⟨none, rfl⟩
    | some f =>
      obtain ⟨p, rfl⟩ := hentry b f hb
      exact ⟨some p, rfl⟩
  obtain ⟨primitive?, hp⟩ := Classical.axiomOfChoice hprimitive
  obtain ⟨quote, apply, entry, fallback⟩ := t
  obtain rfl : (fun b => (primitive? b).map (Primitive.eval group)) = entry := funext hp
  rcases hfallback with rfl | rfl
  · exact ⟨⟨quote, apply, primitive?, false⟩, rfl⟩
  · exact ⟨⟨quote, apply, primitive?, true⟩, rfl⟩

/-- The primitive of an operator atom; only atoms of one byte have one. -/
def get? (d : Dialect) : Bytes → Option Primitive
  | [b] => d.primitive? b
  | _ => none

theorem eval_table (d : Dialect) (group : Option PointGroup) (op : Bytes) (args : Node) :
    (d.table group).eval (.atom op) args =
      match d.get? op with
      | some p => p.eval group args
      | none => (d.table group).fallback (.atom op) args := by
  have hget : (d.table group).get? op = (d.get? op).map (Primitive.eval group) := by
    match op with
    | [] | [_] | _ :: _ :: _ => rfl
  rw [OperatorTable.eval, hget]
  cases d.get? op with
  | none => rfl
  | some p => rfl

end Dialect

end MeteredTree

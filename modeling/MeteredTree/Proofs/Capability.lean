import Mathlib.Control.Monad.Basic
import MeteredTree.Proofs.Dialects
import MeteredTree.Proofs.Restriction
import MeteredTree.Proofs.Settling

/-! Runs with and without a point group. Two primitives ask for the group, one
before and one after it has looked at its arguments, and either says that none
is loaded; so the table without a group restricts the one with it. -/

namespace MeteredTree

/-- What an operator on points answers for want of a group. -/
def EvalError.notLoaded : EvalError := .fault (.point .notLoaded) .nil

/-- The primitives that ask for the group. -/
def Primitive.OnPoints (p : Primitive) : Prop :=
  p = .pointAdd ∨ p = .publicKey

/-- The arguments of the second one are checked first, and if they are at fault
the group does not matter. -/
theorem Primitive.eval_none (p : Primitive) (g : PointGroup) (args : Node) :
    p.eval none args = p.eval (some g) args ∨
      p.OnPoints ∧ p.eval none args = .error .notLoaded := by
  cases p with
  | pointAdd => exact .inr ⟨.inl rfl, rfl⟩
  | publicKey =>
    cases h : Arguments.oneOperand (.primitive .publicKey) args with
    | error e =>
      left
      simp only [eval, Operator.publicKey, h]
      rfl
    | ok a =>
      refine .inr ⟨.inr rfl, ?_⟩
      simp only [eval, Operator.publicKey, h]
      rfl
  | _ => exact .inl rfl

namespace Dialect

/-- An operator on points fails for want of a group. -/
def NotLoaded (d : Dialect) (op : Bytes) (e : EvalError) : Prop :=
  (∃ p, d.get? op = some p ∧ p.OnPoints) ∧ e = .notLoaded

theorem table_none_restricts (d : Dialect) (g : PointGroup) :
    (d.table none).Restricts d.NotLoaded (d.table (some g)) where
  quote := rfl
  apply := rfl
  eval op args := by
    rw [eval_table, eval_table]
    cases hop : d.get? op with
    | none => exact .inl rfl
    | some p =>
      rcases p.eval_none g args with hsame | ⟨hp, herror⟩
      · exact .inl hsame
      · exact .inr ⟨.notLoaded, ⟨⟨p, hop, hp⟩, rfl⟩, herror⟩

end Dialect

/-- Whether a group is loaded changes no response, except that a run without
one may fail for want of it; and then the run with the group comes to an
operator on points. -/
theorem missing_group_only_rejects (d : Dialect) (g : PointGroup) (program env : Node)
    (limit : Option Cost) :
    let start (group : Option PointGroup) := Machine.new (d.table group) program env limit
    let ComesToPoints := ∃ s op p, (start (some g)).Reachable s ∧ s.Calls op ∧
      d.get? op = some p ∧ p.OnPoints
    (∀ response response', (start none).Returns response → (start (some g)).Returns response' →
      response = response' ∨ response = .error .notLoaded ∧ ComesToPoints) ∧
    (∀ response, (start none).Returns response →
      (start (some g)).Returns response ∨ response = .error .notLoaded ∧ ComesToPoints) ∧
    (∀ response, (start (some g)).Returns response →
      (start none).Returns response ∨ (start none).Returns (.error .notLoaded)) ∧
    ((d.table none).run program env limit = (d.table (some g)).run program env limit ∨
      (d.table none).run program env limit = some (.error .notLoaded) ∧ ComesToPoints) ∧
    EvalError.notLoaded.message = "module not loaded" ∧
    EvalError.notLoaded.node? = some .nil := by
  intro start ComesToPoints
  have hrestricts := d.table_none_restricts g
  have habsent : ∀ response, (start none).Returns response →
      (start (some g)).Returns response ∨ response = .error .notLoaded ∧ ComesToPoints := by
    intro response hr
    rcases Machine.Returns.of_restricts (m := start (some g)) hrestricts hr with hsame |
      ⟨s, op, e, hs, hcalls, ⟨⟨p, hop, hp⟩, rfl⟩, rfl⟩
    · exact .inl hsame
    · exact .inr ⟨rfl, s, op, p, hs, hcalls, hop, hp⟩
  refine ⟨?_, habsent, ?_, ?_, rfl, rfl⟩
  · intro response response' hr hr'
    rcases habsent response hr with hsame | hreject
    · exact .inl (hsame.unique hr')
    · exact .inr hreject
  · intro response hr
    rcases hr.restricts hrestricts with hsame | ⟨response', ⟨s, op, e, _, _, ⟨_, rfl⟩, rfl⟩, hr'⟩
    · exact .inl hsame
    · exact .inr hr'
  · rcases Machine.runFor_restricts (m := start (some g)) hrestricts _ with hsame |
      ⟨s, op, e, hs, hcalls, ⟨⟨p, hop, hp⟩, rfl⟩, hrun⟩
    · exact .inl hsame
    · exact .inr ⟨hrun, s, op, p, hs, hcalls, hop, hp⟩

theorem missing_group_only_rejects_sum :
    let d := Dialect.complete false
    let start (group : Option PointGroup) :=
      Machine.new (d.table group) (.pair (.atom [29]) .nil) .nil none
    (start none).Returns (.error .notLoaded) ∧
    (start (some Curve.group)).Returns (.ok ⟨101575, .atom (0xc0 :: List.replicate 47 0)⟩) ∧
    ∃ s op p, (start (some Curve.group)).Reachable s ∧ s.Calls op ∧
      d.get? op = some p ∧ p.OnPoints := by
  intro d start
  have habsent : (start none).Returns (.error .notLoaded) := ⟨2, by decide +kernel⟩
  have hpresent : (start (some Curve.group)).Returns
      (.ok ⟨101575, .atom (0xc0 :: List.replicate 47 0)⟩) := ⟨2, by decide +kernel⟩
  obtain ⟨h, _⟩ := missing_group_only_rejects d Curve.group (.pair (.atom [29]) .nil) .nil none
  rcases h _ _ habsent hpresent with hsame | ⟨_, hcomes⟩
  · cases hsame
  · exact ⟨habsent, hpresent, hcomes⟩

end MeteredTree

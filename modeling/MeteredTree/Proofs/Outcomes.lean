import MeteredTree.Operator.Table
import MeteredTree.Proofs.LengthFields

/-! What primitives give. Where a primitive succeeds, the shape of its
arguments and its reduction follow one rule, and what is proved of primitives
is proved rule by rule. -/

namespace MeteredTree

namespace Arguments

theorem mapM_atoms {β : Type} {f : Node → Except EvalError β} {g : Bytes → β}
    (hatom : ∀ bytes, f (.atom bytes) = .ok (g bytes))
    (hpair : ∀ first rest x, f (.pair first rest) ≠ .ok x) {items : List Node} {xs : List β}
    (h : items.mapM f = .ok xs) :
    ∃ atoms : List Bytes, items = atoms.map Node.atom ∧ xs = atoms.map g := by
  induction items generalizing xs with
  | nil =>
    rw [List.mapM_nil] at h
    cases h
    exact ⟨[], rfl, rfl⟩
  | cons item items ih =>
    rw [List.mapM_cons] at h
    obtain ⟨x, hx, hbind⟩ := bind_eq_ok.mp h
    obtain ⟨ys, hys, hpure⟩ := bind_eq_ok.mp hbind
    obtain rfl : x :: ys = xs := Except.ok.inj hpure
    obtain ⟨atoms, rfl, rfl⟩ := ih hys
    cases item with
    | atom bytes =>
      obtain rfl : g bytes = x := Except.ok.inj ((hatom bytes).symm.trans hx)
      exact ⟨bytes :: atoms, rfl, rfl⟩
    | pair first rest => exact absurd hx (hpair first rest x)

theorem mapM_of_atoms {β : Type} {f : Node → Except EvalError β} {g : Bytes → β}
    (hatom : ∀ bytes, f (.atom bytes) = .ok (g bytes)) (atoms : List Bytes) :
    (atoms.map Node.atom).mapM f = .ok (atoms.map g) := by
  induction atoms with
  | nil => rfl
  | cons b bs ih =>
    rw [List.map_cons, List.mapM_cons, ih, hatom]
    rfl

/-- Everything before the first pair is fine, and that is at fault. -/
theorem mapM_of_pair {β : Type} {f : Node → Except EvalError β} {g : Bytes → β}
    {e : Node → EvalError} (hatom : ∀ bytes, f (.atom bytes) = .ok (g bytes))
    (hpair : ∀ first rest, f (.pair first rest) = .error (e (.pair first rest)))
    {items : List Node} {n : Node} (h : items.find? Node.isPair = some n) :
    items.mapM f = .error (e n) := by
  induction items with
  | nil => cases h
  | cons item items ih =>
    cases item with
    | atom bytes =>
      rw [List.mapM_cons, hatom, ih h]
      rfl
    | pair first rest =>
      obtain rfl : Node.pair first rest = n := Option.some.inj h
      rw [List.mapM_cons, hpair]
      rfl

variable {subject : Subject} {args : Node}

theorem atoms_ok {xs : List Bytes} (h : atoms subject args = .ok xs) :
    args.items = xs.map Node.atom := by
  obtain ⟨bs, hitems, rfl⟩ := mapM_atoms (g := id) (fun _ => rfl) (fun _ _ _ h => by cases h) h
  rw [hitems, List.map_id]

theorem operands_ok {xs : List Operand} (h : operands subject args = .ok xs) :
    ∃ bs : List Bytes, args.items = bs.map Node.atom ∧ xs = bs.map Operand.ofBytes :=
  mapM_atoms (f := operand subject) (fun _ => rfl) (fun _ _ _ h => by cases h) h

theorem operands_of_atoms {bs : List Bytes} (h : args.items = bs.map Node.atom) :
    operands subject args = .ok (bs.map Operand.ofBytes) := by
  rw [operands, h]
  exact mapM_of_atoms (f := operand subject) (fun _ => rfl) bs

theorem atoms_of_atoms {bs : List Bytes} (h : args.items = bs.map Node.atom) :
    atoms subject args = .ok bs := by
  have hmap := mapM_of_atoms (f := atom subject) (g := id) (fun _ => rfl) bs
  rwa [List.map_id, ← h] at hmap

theorem oneOperand_of_atom {a : Bytes} (h : args.items = [.atom a]) :
    oneOperand subject args = .ok (.ofBytes a) := by
  have hitems : args.items = [a].map .atom := h
  rw [oneOperand, operands_of_atoms hitems]
  rfl

theorem twoOperands_of_atoms {a b : Bytes} (h : args.items = [.atom a, .atom b]) :
    twoOperands subject args = .ok (.ofBytes a, .ofBytes b) := by
  have hitems : args.items = [a, b].map .atom := h
  rw [twoOperands, operands_of_atoms hitems]
  rfl

theorem operands_of_pair {n : Node} (h : args.items.find? Node.isPair = some n) :
    operands subject args = fault (.notInteger subject) n :=
  mapM_of_pair (f := operand subject) (e := .fault (.notInteger subject)) (fun _ => rfl)
    (fun _ _ => rfl) h

theorem atoms_of_pair {n : Node} (h : args.items.find? Node.isPair = some n) :
    atoms subject args = fault (.onList subject) n :=
  mapM_of_pair (f := atom subject) (e := .fault (.onList subject)) (fun _ => rfl)
    (fun _ _ => rfl) h

theorem oneOperand_ok {x : Operand} (h : oneOperand subject args = .ok x) :
    ∃ a, args.items = [.atom a] ∧ x = .ofBytes a := by
  obtain ⟨xs, hxs, hmatch⟩ := bind_eq_ok.mp h
  obtain ⟨bs, hitems, rfl⟩ := operands_ok hxs
  match bs, hmatch with
  | [a], hmatch => exact ⟨a, hitems, (Except.ok.inj hmatch).symm⟩

theorem twoOperands_ok {x y : Operand} (h : twoOperands subject args = .ok (x, y)) :
    ∃ a b, args.items = [.atom a, .atom b] ∧ x = .ofBytes a ∧ y = .ofBytes b := by
  obtain ⟨xs, hxs, hmatch⟩ := bind_eq_ok.mp h
  obtain ⟨bs, hitems, rfl⟩ := operands_ok hxs
  match bs, hmatch with
  | [a, b], hmatch =>
    obtain ⟨hx, hy⟩ := Prod.mk.inj (Except.ok.inj hmatch)
    exact ⟨a, b, hitems, hx.symm, hy.symm⟩

theorem one_ok {a : Node} (h : one subject args = .ok a) : args.items = [a] := by
  rw [one] at h
  split at h
  · next b hitems =>
    obtain rfl := Except.ok.inj h
    exact hitems
  · cases h

theorem atom_ok {n : Node} {bytes : Bytes} (h : atom subject n = .ok bytes) : n = .atom bytes := by
  cases n with
  | atom b => exact congrArg Node.atom (Except.ok.inj h)
  | pair first rest => cases h

theorem twoAtoms_ok {a b : Bytes} (h : twoAtoms subject args = .ok (a, b)) :
    args.items = [.atom a, .atom b] := by
  rw [twoAtoms] at h
  split at h
  · next x y hitems =>
    obtain ⟨a', ha, hbind⟩ := bind_eq_ok.mp h
    obtain ⟨b', hb, hpure⟩ := bind_eq_ok.mp hbind
    obtain ⟨rfl, rfl⟩ := Prod.mk.inj (Except.ok.inj hpure)
    rw [hitems, atom_ok ha, atom_ok hb]
  · cases h

end Arguments

namespace Operator

theorem shiftArguments_ok {p : Primitive} {args : Node} {x : Operand} {amount : Int}
    (h : shiftArguments p args = .ok (x, amount)) :
    ∃ a b, args.items = [.atom a, .atom b] ∧ x = .ofBytes a ∧
      -maxShift ≤ amount ∧ amount ≤ maxShift := by
  obtain ⟨⟨x', y⟩, htwo, hcheck⟩ := bind_eq_ok.mp h
  obtain ⟨a, b, hitems, rfl, rfl⟩ := Arguments.twoOperands_ok htwo
  dsimp only at hcheck
  split at hcheck
  · cases hcheck
  · split at hcheck
    · next hrange =>
      obtain ⟨rfl, rfl⟩ := Prod.mk.inj (Except.ok.inj hcheck)
      exact ⟨a, b, hitems, rfl, hrange⟩
    · cases hcheck

theorem slice_ok {args : Node} {s : Bytes} {start stop : Int} {r : Reduction}
    (h : slice args s start stop = .ok r) :
    ∃ i j, r = ⟨Price.substr, .atom ((s.drop i).take j)⟩ := by
  rw [slice] at h
  split at h
  · cases h
  · exact ⟨_, _, (Except.ok.inj h).symm⟩

theorem substr_ok {args : Node} {r : Reduction} (h : substr args = .ok r) :
    ∃ s i j, .atom s ∈ args.items ∧ r = ⟨Price.substr, .atom ((s.drop i).take j)⟩ := by
  rw [substr] at h
  split at h
  · next a i hitems =>
    obtain ⟨s, hs, hbind⟩ := bind_eq_ok.mp h
    obtain ⟨start, _, hslice⟩ := bind_eq_ok.mp hbind
    obtain ⟨i', j, hr⟩ := slice_ok hslice
    exact ⟨s, i', j, by rw [hitems, Arguments.atom_ok hs]; exact List.mem_cons_self, hr⟩
  · next a i j hitems =>
    obtain ⟨s, hs, hbind⟩ := bind_eq_ok.mp h
    obtain ⟨start, _, hbind'⟩ := bind_eq_ok.mp hbind
    obtain ⟨stop, _, hslice⟩ := bind_eq_ok.mp hbind'
    obtain ⟨i', j', hr⟩ := slice_ok hslice
    exact ⟨s, i', j', by rw [hitems, Arguments.atom_ok hs]; exact List.mem_cons_self, hr⟩
  · cases h

end Operator

open Operator

/-- The reduction that a primitive gives for its arguments, one rule for each
primitive that can succeed. -/
inductive Primitive.Gives (group : Option PointGroup) (args : Node) : Primitive → Reduction → Prop
  | choose {condition yes no : Node} (h : args.items = [condition, yes, no]) :
    Gives group args .choose ⟨Price.choose, if condition.isNil then no else yes⟩
  | cons {first rest : Node} (h : args.items = [first, rest]) :
    Gives group args .cons ⟨Price.cons, .pair first rest⟩
  | first {first rest : Node} (h : args.items = [.pair first rest]) :
    Gives group args .first ⟨Price.first, first⟩
  | rest {first rest : Node} (h : args.items = [.pair first rest]) :
    Gives group args .rest ⟨Price.rest, rest⟩
  | isPair {a : Node} (h : args.items = [a]) :
    Gives group args .isPair ⟨Price.isPair, .ofBool a.isPair⟩
  | equal {a b : Bytes} (h : args.items = [.atom a, .atom b]) :
    Gives group args .equal ⟨Price.equal.plain 0 (a.length + b.length), .ofBool (a == b)⟩
  | greaterBytes {a b : Bytes} (h : args.items = [.atom a, .atom b]) :
    Gives group args .greaterBytes
      ⟨Price.greaterBytes.plain 0 (a.length + b.length), .ofBool (Bytes.less b a)⟩
  | sha256 {xs : List Bytes} (h : args.items = xs.map Node.atom) :
    Gives group args .sha256 ⟨Price.sha256.ofAtoms xs, .atom (Sha256.hash xs.flatten)⟩
  | substr {s : Bytes} (i j : Nat) (h : .atom s ∈ args.items) :
    Gives group args .substr ⟨Price.substr, .atom ((s.drop i).take j)⟩
  | strlen {a : Bytes} (h : args.items = [.atom a]) :
    Gives group args .strlen (.newInteger (Price.strlen.plain 0 a.length) a.length)
  | concat {xs : List Bytes} (h : args.items = xs.map Node.atom) :
    Gives group args .concat (.newAtom (Price.concat.ofAtoms xs) xs.flatten)
  | add {xs : List Bytes} (h : args.items = xs.map Node.atom) :
    Gives group args .add (.newInteger (Price.arithmetic.ofOperands (xs.map .ofBytes))
      (sum (xs.map .ofBytes)))
  | subtract {xs : List Bytes} (h : args.items = xs.map Node.atom) :
    Gives group args .subtract (.newInteger (Price.arithmetic.ofOperands (xs.map .ofBytes))
      (difference (xs.map .ofBytes)))
  | multiply {xs : List Bytes} (h : args.items = xs.map Node.atom) :
    Gives group args .multiply
      (.newInteger (product (xs.map .ofBytes)).2 (product (xs.map .ofBytes)).1)
  | divide {a b : Bytes} (h : args.items = [.atom a, .atom b]) (hb : Integer.ofBytes b ≠ 0) :
    Gives group args .divide (.newInteger (Price.divide.plain 0 (a.length + b.length))
      ((Integer.ofBytes a).fdiv (Integer.ofBytes b)))
  | divmod {a b q r : Bytes} (h : args.items = [.atom a, .atom b]) (hb : Integer.ofBytes b ≠ 0)
      (hq : q = Integer.toBytes ((Integer.ofBytes a).fdiv (Integer.ofBytes b)))
      (hr : r = Integer.toBytes ((Integer.ofBytes a).fmod (Integer.ofBytes b))) :
    Gives group args .divmod ⟨Price.divmod.plain 0 (a.length + b.length) +
      Price.allocation q.length + Price.allocation r.length, .pair (.atom q) (.atom r)⟩
  | greater {a b : Bytes} (h : args.items = [.atom a, .atom b]) :
    Gives group args .greater ⟨Price.greater.plain 0 (a.length + b.length),
      .ofBool (Integer.ofBytes b < Integer.ofBytes a)⟩
  | ash {x : Operand} {amount : Int} (h : shiftArguments .ash args = .ok (x, amount)) :
    Gives group args .ash
      (shifted Price.arithmeticShift x.width (Integer.shift x.value amount))
  | lsh {x : Operand} {amount : Int} (h : shiftArguments .lsh args = .ok (x, amount)) :
    Gives group args .lsh
      (shifted Price.logicalShift x.width (Integer.shift x.unsigned amount))
  | logand {xs : List Bytes} (h : args.items = xs.map Node.atom) :
    Gives group args .logand (.newInteger (Price.logic.ofOperands (xs.map .ofBytes))
      ((xs.map Operand.ofBytes).foldl (fun total x => Integer.and total x.value) (-1)))
  | logior {xs : List Bytes} (h : args.items = xs.map Node.atom) :
    Gives group args .logior (.newInteger (Price.logic.ofOperands (xs.map .ofBytes))
      ((xs.map Operand.ofBytes).foldl (fun total x => Integer.or total x.value) 0))
  | logxor {xs : List Bytes} (h : args.items = xs.map Node.atom) :
    Gives group args .logxor (.newInteger (Price.logic.ofOperands (xs.map .ofBytes))
      ((xs.map Operand.ofBytes).foldl (fun total x => Integer.xor total x.value) 0))
  | lognot {a : Bytes} (h : args.items = [.atom a]) :
    Gives group args .lognot (.newInteger (Price.lognot.plain 0 a.length)
      (Integer.not (Integer.ofBytes a)))
  | pointAdd {g : PointGroup} {total : g.Point} (hg : group = some g) :
    Gives group args .pointAdd
      (.newAtom (Price.pointAdd.plain args.items.length 0) (g.compress total))
  | publicKey {g : PointGroup} {a : Bytes} {point : g.Point} (hg : group = some g)
      (h : args.items = [.atom a]) :
    Gives group args .publicKey
      (.newAtom (Price.publicKey.plain 0 a.length) (g.compress point))
  | not {a : Node} (h : args.items = [a]) :
    Gives group args .not ⟨Price.boolean.base, .ofBool a.isNil⟩
  | any : Gives group args .any
      ⟨Price.boolean.plain args.items.length 0, .ofBool (args.items.any fun a => !a.isNil)⟩
  | all : Gives group args .all
      ⟨Price.boolean.plain args.items.length 0, .ofBool (args.items.all fun a => !a.isNil)⟩
  | softfork {a : Bytes} {more : List Node} (h : args.items = .atom a :: more) :
    Gives group args .softfork ⟨Cost.clamp (Integer.ofBytes a).toNat, .nil⟩

namespace Primitive

variable {group : Option PointGroup} {args : Node} {r : Reduction}

theorem gives_first (h : Operator.first args = .ok r) : Gives group args .first r := by
  obtain ⟨list, hone, hbind⟩ := bind_eq_ok.mp h
  obtain ⟨value, hfirst, hpure⟩ := bind_eq_ok.mp hbind
  obtain rfl := Except.ok.inj hpure
  cases list with
  | atom bytes => cases hfirst
  | pair first rest =>
    obtain rfl := Except.ok.inj hfirst
    exact .first (Arguments.one_ok hone)

theorem gives_rest (h : Operator.rest args = .ok r) : Gives group args .rest r := by
  obtain ⟨list, hone, hbind⟩ := bind_eq_ok.mp h
  obtain ⟨value, hrest, hpure⟩ := bind_eq_ok.mp hbind
  obtain rfl := Except.ok.inj hpure
  cases list with
  | atom bytes => cases hrest
  | pair first rest =>
    obtain rfl := Except.ok.inj hrest
    exact .rest (Arguments.one_ok hone)

theorem gives_choose (h : Operator.choose args = .ok r) : Gives group args .choose r := by
  rw [Operator.choose] at h
  split at h
  · next condition yes no hitems =>
    obtain rfl := Except.ok.inj h
    exact .choose hitems
  · cases h

theorem gives_cons (h : Operator.cons args = .ok r) : Gives group args .cons r := by
  rw [Operator.cons] at h
  split at h
  · next first rest hitems =>
    obtain rfl := Except.ok.inj h
    exact .cons hitems
  · cases h

theorem not_raise_ok : Operator.raise args ≠ .ok r := by
  rw [Operator.raise]
  split
  · intro h
    cases h
  · intro h
    cases h

theorem gives_strlen (h : Operator.strlen args = .ok r) : Gives group args .strlen r := by
  obtain ⟨a, hone, hbind⟩ := bind_eq_ok.mp h
  obtain ⟨bytes, hatom, hpure⟩ := bind_eq_ok.mp hbind
  obtain rfl := Except.ok.inj hpure
  have hitems := Arguments.one_ok hone
  rw [Arguments.atom_ok hatom] at hitems
  exact .strlen hitems

theorem gives_divide (h : Operator.divide args = .ok r) : Gives group args .divide r := by
  obtain ⟨⟨x, y⟩, htwo, hcheck⟩ := bind_eq_ok.mp h
  obtain ⟨a, b, hitems, rfl, rfl⟩ := Arguments.twoOperands_ok htwo
  dsimp only at hcheck
  split at hcheck
  · cases hcheck
  · next hb =>
    obtain rfl := Except.ok.inj hcheck
    exact .divide hitems hb

theorem gives_divmod (h : Operator.divmod args = .ok r) : Gives group args .divmod r := by
  obtain ⟨⟨x, y⟩, htwo, hcheck⟩ := bind_eq_ok.mp h
  obtain ⟨a, b, hitems, rfl, rfl⟩ := Arguments.twoOperands_ok htwo
  dsimp only at hcheck
  split at hcheck
  · cases hcheck
  · next hb =>
    obtain rfl := Except.ok.inj hcheck
    exact .divmod hitems hb rfl rfl

theorem gives_pointAdd (h : Operator.pointAdd group args = .ok r) :
    Gives group args .pointAdd r := by
  cases group with
  | none => cases h
  | some g =>
    obtain ⟨total, _, hpure⟩ := bind_eq_ok.mp h
    obtain rfl := Except.ok.inj hpure
    exact .pointAdd rfl

theorem gives_publicKey (h : Operator.publicKey group args = .ok r) :
    Gives group args .publicKey r := by
  obtain ⟨x, hone, hgroup⟩ := bind_eq_ok.mp h
  obtain ⟨a, hitems, rfl⟩ := Arguments.oneOperand_ok hone
  cases group with
  | none => cases hgroup
  | some g =>
    obtain rfl := Except.ok.inj hgroup
    exact .publicKey rfl hitems

theorem gives_softfork (h : Operator.softfork args = .ok r) : Gives group args .softfork r := by
  rw [Operator.softfork] at h
  split at h
  · cases h
  · next declared more hitems =>
    obtain ⟨cost, hcost, hcheck⟩ := bind_eq_ok.mp h
    cases declared with
    | pair first rest => cases hcost
    | atom a =>
      obtain rfl := Except.ok.inj hcost
      split at hcheck
      · cases hcheck
      · obtain rfl := Except.ok.inj hcheck
        exact .softfork hitems

/-- A primitive gives what its rule says. -/
theorem gives_of_eval {p : Primitive} (h : p.eval group args = .ok r) : Gives group args p r := by
  cases p with
  | choose => exact gives_choose h
  | cons => exact gives_cons h
  | first => exact gives_first h
  | rest => exact gives_rest h
  | raise => exact absurd h not_raise_ok
  | isPair | not =>
    obtain ⟨a, hone, hpure⟩ := bind_eq_ok.mp h
    obtain rfl := Except.ok.inj hpure
    constructor
    exact Arguments.one_ok hone
  | equal | greaterBytes =>
    obtain ⟨⟨a, b⟩, htwo, hpure⟩ := bind_eq_ok.mp h
    obtain rfl := Except.ok.inj hpure
    constructor
    exact Arguments.twoAtoms_ok htwo
  | sha256 | concat =>
    obtain ⟨xs, hatoms, hpure⟩ := bind_eq_ok.mp h
    obtain rfl := Except.ok.inj hpure
    constructor
    exact Arguments.atoms_ok hatoms
  | substr =>
    obtain ⟨s, i, j, hmem, rfl⟩ := substr_ok h
    exact .substr i j hmem
  | strlen => exact gives_strlen h
  | add | subtract | multiply | logand | logior | logxor =>
    obtain ⟨xs, hoperands, hpure⟩ := bind_eq_ok.mp h
    obtain ⟨bs, hitems, rfl⟩ := Arguments.operands_ok hoperands
    obtain rfl := Except.ok.inj hpure
    constructor
    exact hitems
  | divide => exact gives_divide h
  | divmod => exact gives_divmod h
  | greater =>
    obtain ⟨⟨x, y⟩, htwo, hpure⟩ := bind_eq_ok.mp h
    obtain ⟨a, b, hitems, rfl, rfl⟩ := Arguments.twoOperands_ok htwo
    obtain rfl := Except.ok.inj hpure
    exact .greater hitems
  | ash | lsh =>
    obtain ⟨⟨x, amount⟩, hshift, hpure⟩ := bind_eq_ok.mp h
    obtain rfl := Except.ok.inj hpure
    constructor
    exact hshift
  | lognot =>
    obtain ⟨x, hone, hpure⟩ := bind_eq_ok.mp h
    obtain ⟨a, hitems, rfl⟩ := Arguments.oneOperand_ok hone
    obtain rfl := Except.ok.inj hpure
    exact .lognot hitems
  | pointAdd => exact gives_pointAdd h
  | publicKey => exact gives_publicKey h
  | any =>
    obtain rfl := Except.ok.inj h
    exact .any
  | all =>
    obtain rfl := Except.ok.inj h
    exact .all
  | softfork => exact gives_softfork h

end Primitive

end MeteredTree

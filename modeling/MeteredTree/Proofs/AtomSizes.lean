import Mathlib.Control.Monad.Basic
import MeteredTree.Proofs.Encoding
import MeteredTree.Proofs.ExactRuns

/-! Charges against the sizes of atoms. An atom that a step puts on the stack
was there before or is part of one that was, is a hash, or was paid for byte by
byte. So what a run has been charged bounds the atoms that it can hold. -/

namespace MeteredTree

namespace Node

/-- The length of the longest atom. -/
def longest : Node → Nat
  | .atom bytes => bytes.length
  | .pair first rest => max first.longest rest.longest

theorem longest_atom_le {bytes : Bytes} {bound : Nat} :
    (atom bytes).longest ≤ bound ↔ bytes.length ≤ bound := Iff.rfl

theorem longest_pair_le {first rest : Node} {bound : Nat} :
    (pair first rest).longest ≤ bound ↔ first.longest ≤ bound ∧ rest.longest ≤ bound :=
  Nat.max_le

theorem longest_le_iff {n : Node} {bound : Nat} :
    n.longest ≤ bound ↔ ∀ bytes ∈ n.atoms, bytes.length ≤ bound := by
  induction n with
  | atom bytes => simp [longest_atom_le, atoms]
  | pair first rest ihfirst ihrest =>
    simp only [longest_pair_le, ihfirst, ihrest, atoms, List.forall_mem_append]

theorem longest_item_le {n item : Node} {bound : Nat} (h : n.longest ≤ bound)
    (hitem : item ∈ n.items) : item.longest ≤ bound := by
  induction n with
  | atom bytes => cases hitem
  | pair first rest _ ih =>
    obtain ⟨hfirst, hrest⟩ := longest_pair_le.mp h
    rw [items_pair] at hitem
    rcases List.mem_cons.mp hitem with rfl | hmem
    · exact hfirst
    · exact ih hrest hmem

theorem longest_ofBool_le (b : Bool) : (ofBool b).longest ≤ 1 := by
  cases b with
  | false => exact Nat.zero_le 1
  | true => exact Nat.le_refl 1

end Node

theorem Sha256.length_hash (message : Bytes) : (hash message).length = 32 := by
  simp [hash, State.digest]

theorem Path.longest_follow_le {legs : List Bool} {node : Node} {cost : Cost} {r : Reduction}
    {bound : Nat} (h : follow legs node cost = .ok r) (hnode : node.longest ≤ bound) :
    r.value.longest ≤ bound := by
  induction legs generalizing node cost with
  | nil =>
    obtain rfl := Except.ok.inj h
    exact hnode
  | cons toRest legs ih =>
    cases node with
    | atom bytes => cases h
    | pair first rest =>
      obtain ⟨hfirst, hrest⟩ := Node.longest_pair_le.mp hnode
      cases toRest with
      | false => exact ih h hfirst
      | true => exact ih h hrest

namespace Formula

/-- Ten units for each byte up to `bound` are more than the formula comes to,
and it does not come to the largest cost. -/
structure Within (f : Formula) (bound : Nat) : Prop where
  lt_max : f.exact < 0xffffffffffffffff
  div_le : f.exact / 10 ≤ bound

theorem Within.length_le {cost : Formula} {length bound : Nat}
    (h : (cost.newAtom length).Within bound) : length ≤ bound := by
  have hle := le_exact_newAtom cost length
  obtain ⟨hmax, hdiv⟩ := h
  omega

end Formula

open Formula

namespace Primitive

variable {group : Option PointGroup} {args : Node} {bound : Nat}

/-- Whether a primitive makes new atoms and is charged for their bytes. -/
def allocates : Primitive → Bool
  | .strlen | .concat | .add | .subtract | .multiply | .divide | .divmod | .ash | .lsh | .logand
  | .logior | .logxor | .lognot | .pointAdd | .publicKey => true
  | _ => false

theorem Gives.longest_le_of_free {p : Primitive} {r : Reduction} (h : Gives group args p r)
    (hp : p.allocates = false) (hargs : args.longest ≤ bound) (hbound : 32 ≤ bound) :
    r.value.longest ≤ bound := by
  cases h with
  | @choose condition yes no h =>
    have hyes : yes.longest ≤ bound := Node.longest_item_le hargs (by simp [h])
    have hno : no.longest ≤ bound := Node.longest_item_le hargs (by simp [h])
    dsimp only
    split
    · exact hno
    · exact hyes
  | cons h =>
    exact Node.longest_pair_le.mpr
      ⟨Node.longest_item_le hargs (by simp [h]), Node.longest_item_le hargs (by simp [h])⟩
  | @first first rest h =>
    have hpair : (Node.pair first rest).longest ≤ bound :=
      Node.longest_item_le hargs (by simp [h])
    exact (Node.longest_pair_le.mp hpair).1
  | @rest first rest h =>
    have hpair : (Node.pair first rest).longest ≤ bound :=
      Node.longest_item_le hargs (by simp [h])
    exact (Node.longest_pair_le.mp hpair).2
  | isPair | equal | greaterBytes | greater | not | any | all =>
    exact Nat.le_trans (Node.longest_ofBool_le _) (Nat.le_trans (by decide) hbound)
  | sha256 =>
    rw [Node.longest_atom_le, Sha256.length_hash]
    exact hbound
  | @substr s i j h =>
    have hs : s.length ≤ bound := Node.longest_item_le hargs h
    rw [Node.longest_atom_le, List.length_take, List.length_drop]
    omega
  | softfork => exact Nat.zero_le bound
  | _ => cases hp

theorem Gives.longest_le {p : Primitive} {r : Reduction} (h : Gives group args p r)
    (hargs : args.longest ≤ bound) (hbound : 32 ≤ bound)
    (hcost : (p.formula args r.value).Within bound) : r.value.longest ≤ bound := by
  cases hp : p.allocates with
  | false => exact h.longest_le_of_free hp hargs hbound
  | true =>
    cases h with
    | strlen | concat | add | subtract | divide | logand | logior | logxor | lognot | pointAdd
    | publicKey => exact hcost.length_le
    | multiply h =>
      rw [formula, Arguments.operands_of_atoms h] at hcost
      exact hcost.length_le
    | ash h | lsh h =>
      rw [formula, h] at hcost
      exact hcost.length_le
    | @divmod a b q r h =>
      have hq := le_exact_allocation q.length
      have hr := le_exact_allocation r.length
      obtain ⟨hmax, hdiv⟩ := hcost
      simp only [formula, exact, Node.width] at hmax hdiv
      rw [Node.longest_pair_le, Node.longest_atom_le, Node.longest_atom_le]
      omega
    | _ => cases hp

end Primitive

theorem mem_parked {env v : Node} {items values : List Node} (h : v ∈ parked env items values) :
    (∃ item ∈ items, v = .pair item env) ∨ v ∈ values := by
  induction items generalizing values with
  | nil => exact .inr h
  | cons item items ih =>
    rcases ih h with ⟨item', hmem, rfl⟩ | hmem
    · exact .inl ⟨item', List.mem_cons_of_mem item hmem, rfl⟩
    · rcases List.mem_cons.mp hmem with rfl | hmem
      · exact .inl ⟨item, List.mem_cons_self, rfl⟩
      · exact .inr hmem

/-- What one operation does to a bound on the atoms of the stack. -/
theorem Operation.Branch.longest_le {d : Dialect} {group : Option PointGroup}
    {pending : List Operation} {op : Operation} {values : List Node} {effect : Effect}
    {cost : Cost} {bound : Nat} (h : Branch (d.table group) pending op values effect)
    (ho : effect.outcome = .ok cost) (hvalues : ∀ v ∈ values, v.longest ≤ bound)
    (hbound : 32 ≤ bound) (hcost : (op.formula d group values).Within bound) :
    ∀ v ∈ effect.values, v.longest ≤ bound := by
  cases h with
  | cons first rest values =>
    simp only [List.forall_mem_cons] at hvalues ⊢
    obtain ⟨hfirst, hrest, hvalues⟩ := hvalues
    exact ⟨Node.longest_pair_le.mpr ⟨hfirst, hrest⟩, hvalues⟩
  | swap upper lower values =>
    simp only [List.forall_mem_cons] at hvalues ⊢
    obtain ⟨hupper, hlower, hvalues⟩ := hvalues
    exact ⟨hlower, hupper, hvalues⟩
  | path h =>
    simp only [List.forall_mem_cons, Node.longest_pair_le] at hvalues ⊢
    obtain ⟨⟨_, henv⟩, hvalues⟩ := hvalues
    exact ⟨Path.longest_follow_le h henv, hvalues⟩
  | form =>
    simp only [List.forall_mem_cons, Node.longest_pair_le] at hvalues ⊢
    obtain ⟨⟨⟨⟨hinner, _⟩, hoperands⟩, _⟩, hvalues⟩ := hvalues
    exact ⟨⟨hinner, hoperands⟩, hvalues⟩
  | quote =>
    simp only [List.forall_mem_cons, Node.longest_pair_le] at hvalues ⊢
    obtain ⟨⟨⟨_, hoperands⟩, _⟩, hvalues⟩ := hvalues
    exact ⟨hoperands, hvalues⟩
  | operands =>
    simp only [List.forall_mem_cons, Node.longest_pair_le] at hvalues
    obtain ⟨⟨⟨hop, hoperands⟩, henv⟩, hvalues⟩ := hvalues
    intro v hv
    rcases List.mem_cons.mp hv with rfl | hv
    · exact Nat.zero_le bound
    · rcases mem_parked hv with ⟨item, hitem, rfl⟩ | hv
      · exact Node.longest_pair_le.mpr ⟨Node.longest_item_le hoperands hitem, henv⟩
      · rcases List.mem_cons.mp hv with rfl | hv
        · exact hop
        · exact hvalues v hv
  | enter h =>
    simp only [List.forall_mem_cons, Node.longest_pair_le] at hvalues ⊢
    obtain ⟨hargs, _, hvalues⟩ := hvalues
    exact ⟨⟨Node.longest_item_le hargs (by simp [h]), Node.longest_item_le hargs (by simp [h])⟩,
      hvalues⟩
  | primitive hop h =>
    simp only [List.forall_mem_cons] at hvalues ⊢
    obtain ⟨hargs, _, hvalues⟩ := hvalues
    rw [Dialect.apply_table] at hop
    rw [formula, if_neg hop] at hcost
    refine ⟨?_, hvalues⟩
    rcases Dialect.eval_cases h with ⟨p, hgives, hformula⟩ | ⟨hnil, _⟩
    · rw [hformula] at hcost
      exact hgives.longest_le hargs hbound hcost
    · rw [hnil]
      exact Nat.zero_le bound
  | pathError | formError | operandsError | enterError | primitiveError | programAtom
  | operatorPair | underflow => cases ho

namespace Machine

variable {d : Dialect} {group : Option PointGroup}

/-- The length that no atom of a run passes before it has cost more than
`used`. -/
def atomBound (program env : Node) (used : Cost) : Nat :=
  max (max program.longest env.longest) (max 32 (used.toNat / 10))

theorem atomBound_mono (program env : Node) {used used' : Cost} (h : used.toNat ≤ used'.toNat) :
    atomBound program env used ≤ atomBound program env used' := by
  simp only [atomBound]
  omega

theorem result_ok {m : Machine} {r : Reduction} (h : m.result = .ok r) :
    m.meter.used = .ok r.cost ∧ r.value ∈ m.values := by
  rw [result] at h
  split at h
  · cases h
  · cases h
  · next cost value values hused hvalues =>
    obtain rfl := Except.ok.inj h
    exact ⟨hused, hvalues ▸ List.mem_cons_self⟩

theorem ReachedExactly.longest_le {program env : Node} {limit : Option Cost} {m : Machine}
    (h : ReachedExactly d group (new (d.table group) program env limit) m) {used : Cost}
    (hused : m.meter.used = .ok used) (hmax : used < Cost.max) :
    ∀ v ∈ m.values, v.longest ≤ atomBound program env used := by
  induction h generalizing used with
  | refl =>
    intro v hv
    obtain rfl := List.mem_singleton.mp hv
    rw [Node.longest_pair_le, atomBound]
    omega
  | tail hr hs ih =>
    rcases hs.cases with ⟨_, rfl⟩ | ⟨op, pending, effect, cost, hp, hbranch, ho, _, rfl⟩
    · exact ih hused hmax
    · obtain ⟨before, hbefore, hlt, hsum⟩ := used_record_exact hused hmax
      rw [ReachedExactly.table_eq hr] at hbranch
      have hmono := atomBound_mono program env (show before.toNat ≤ used.toNat by omega)
      have hvalues := fun v hv => Nat.le_trans (ih hbefore hlt v hv) hmono
      refine hbranch.longest_le ho hvalues ?_ ?_
      · rw [atomBound]
        omega
      · rw [formula_of_pending hp] at hsum
        have hword : used.toNat < 0xffffffffffffffff := hmax
        refine ⟨by omega, ?_⟩
        rw [atomBound]
        omega

end Machine

end MeteredTree

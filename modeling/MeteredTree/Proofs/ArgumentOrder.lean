import Mathlib.Data.List.Perm.Basic
import MeteredTree.Proofs.BitByBit

/-! Arguments in another order. A permutation of the arguments keeps their
number, their bytes and whether there is a pair among them, and an operator
that takes them in one after the other gives the same if neighbours may change
places. Only the price of a product depends on the order. -/

namespace MeteredTree

open Integer

/-- Both responses are reductions that show the same, or both are errors with
the same message. -/
inductive Alike {α : Type} (shown : Reduction → α) : Response → Response → Prop
  | ok {r r' : Reduction} (h : shown r = shown r') : Alike shown (.ok r) (.ok r')
  | error {e e' : EvalError} (h : e.message = e'.message) : Alike shown (.error e) (.error e')

namespace Operator

variable {α : Type} {shown : Reduction → α} {args args' : Node} {as bs : List Operand}

theorem atom_injective : Function.Injective Node.atom :=
  fun _ _ h => Node.atom.inj h

theorem atoms_perm {items : List Node} {xs : List Bytes} (h : (xs.map Node.atom).Perm items) :
    ∃ ys, items = ys.map Node.atom ∧ xs.Perm ys := by
  have hnone : items.find? Node.isPair = none := by
    rw [List.find?_eq_none]
    intro item hitem
    obtain ⟨x, -, rfl⟩ := List.mem_map.mp (h.mem_iff.mpr hitem)
    simp [Node.isPair]
  obtain ⟨ys, rfl⟩ := Node.exists_atoms hnone
  exact ⟨ys, rfl, (List.map_perm_map_iff atom_injective).mp h⟩

/-- A pair among the arguments is at fault in either order, though not always
the same one. -/
theorem alike_operands {subject : Subject} {k : List Operand → Reduction}
    (h : args.items.Perm args'.items)
    (hk : ∀ xs ys : List Bytes, args.items = xs.map .atom → args'.items = ys.map .atom →
      xs.Perm ys → shown (k (xs.map .ofBytes)) = shown (k (ys.map .ofBytes))) :
    Alike shown (Arguments.operands subject args >>= fun xs => .ok (k xs))
      (Arguments.operands subject args' >>= fun xs => .ok (k xs)) := by
  cases hfind : args.items.find? Node.isPair with
  | none =>
    obtain ⟨xs, hxs⟩ := Node.exists_atoms hfind
    obtain ⟨ys, hys, hperm⟩ := atoms_perm (hxs ▸ h)
    rw [Arguments.operands_of_atoms hxs, Arguments.operands_of_atoms hys]
    exact .ok (hk xs ys hxs hys hperm)
  | some n =>
    have hpair : (args'.items.find? Node.isPair).isSome := by
      rw [List.find?_isSome]
      exact ⟨n, h.mem_iff.mp (List.mem_of_find?_eq_some hfind), List.find?_some hfind⟩
    obtain ⟨n', hfind'⟩ := Option.isSome_iff_exists.mp hpair
    rw [Arguments.operands_of_pair hfind, Arguments.operands_of_pair hfind']
    exact .error rfl

theorem ofOperands_perm (t : Tariff) (h : as.Perm bs) : t.ofOperands as = t.ofOperands bs := by
  have hwidths : as.foldl (fun n x => n + x.width) 0 = bs.foldl (fun n x => n + x.width) 0 :=
    h.foldl_eq' (fun x _ y _ n => Nat.add_right_comm n x.width y.width) 0
  rw [Tariff.ofOperands, Tariff.ofOperands, h.length_eq, hwidths]

theorem sum_perm (h : as.Perm bs) : sum as = sum bs :=
  h.foldl_eq' (fun x _ y _ v => Int.add_right_comm v x.value y.value) 0

theorem difference_perm (h : as.Perm bs) (hfirst : as.head? = bs.head?) :
    difference as = difference bs := by
  cases as with
  | nil => rw [h.nil_eq]
  | cons a as =>
    cases bs with
    | nil => cases hfirst
    | cons b bs =>
      obtain rfl : a = b := Option.some.inj hfirst
      have hrest : as.Perm bs := (List.perm_cons a).mp h
      exact hrest.foldl_eq' (fun x _ y _ v => by omega) a.value

theorem product_perm {xs ys : List Bytes} (h : xs.Perm ys) :
    (product (xs.map .ofBytes)).1 = (product (ys.map .ofBytes)).1 := by
  rw [product_operands, product_operands]
  exact (h.map ofBytes).foldl_eq' (fun x _ y _ v => Int.mul_right_comm v x y) 1

theorem alike_combine {p : Primitive} {f : Int → Int → Int} {start : Int}
    (hf : ∀ u v w, f (f u v) w = f (f u w) v) (h : args.items.Perm args'.items) :
    Alike id (combine p f start args) (combine p f start args') := by
  apply alike_operands h
  intro xs ys _ _ hperm
  have hoperands := hperm.map Operand.ofBytes
  have hvalue : (xs.map Operand.ofBytes).foldl (fun total x => f total x.value) start =
      (ys.map Operand.ofBytes).foldl (fun total x => f total x.value) start :=
    hoperands.foldl_eq' (fun x _ y _ v => hf v x.value y.value) start
  rw [ofOperands_perm _ hoperands, hvalue]

theorem alike_add (h : args.items.Perm args'.items) : Alike id (add args) (add args') := by
  apply alike_operands h
  intro xs ys _ _ hperm
  have hoperands := hperm.map Operand.ofBytes
  rw [ofOperands_perm _ hoperands, sum_perm hoperands]

theorem alike_multiply (h : args.items.Perm args'.items) :
    Alike Reduction.value (multiply args) (multiply args') := by
  apply alike_operands h
  intro xs ys _ _ hperm
  exact congrArg (fun v => Node.atom (toBytes v)) (product_perm hperm)

theorem alike_subtract (h : args.items.Perm args'.items)
    (hfirst : args.items.head? = args'.items.head?) :
    Alike id (subtract args) (subtract args') := by
  apply alike_operands h
  intro xs ys hxs hys hperm
  have hoperands := hperm.map Operand.ofBytes
  have hhead : (xs.map Operand.ofBytes).head? = (ys.map Operand.ofBytes).head? := by
    rw [hxs, hys, List.head?_map, List.head?_map] at hfirst
    rw [List.head?_map, List.head?_map, Option.map_injective atom_injective hfirst]
  rw [ofOperands_perm _ hoperands, difference_perm hoperands hhead]

theorem any_perm (h : args.items.Perm args'.items) : any args = any args' := by
  rw [any, any, h.length_eq, h.any_eq]

theorem all_perm (h : args.items.Perm args'.items) : all args = all args' := by
  rw [all, all, h.length_eq, h.all_eq]

/-- No operator that treats its arguments alike tells one order of them from
another, except that a product may cost more in one than in the other. A
difference stays the same if its first argument does. -/
theorem argument_order_is_immaterial :
    (∀ args args' : Node, args.items.Perm args'.items →
      (∀ op ∈ [add, logand, logior, logxor, any, all], Alike id (op args) (op args')) ∧
      Alike Reduction.value (multiply args) (multiply args') ∧
      (args.items.head? = args'.items.head? → Alike id (subtract args) (subtract args'))) ∧
    ∃ args args' : Node, args.items.Perm args'.items ∧
      ¬ Alike Reduction.cost (multiply args) (multiply args') := by
  refine ⟨?_, ?_⟩
  · intro args args' h
    refine ⟨?_, alike_multiply h, alike_subtract h⟩
    intro op hop
    simp only [List.mem_cons, List.not_mem_nil, or_false] at hop
    rcases hop with rfl | rfl | rfl | rfl | rfl | rfl
    · exact alike_add h
    · exact alike_combine (actsOnBits_and.apply_right_comm Bool.and_comm) h
    · exact alike_combine (actsOnBits_or.apply_right_comm Bool.or_comm) h
    · exact alike_combine (actsOnBits_xor.apply_right_comm Bool.xor_comm) h
    · rw [any_perm h]
      exact .ok rfl
    · rw [all_perm h]
      exact .ok rfl
  · -- a product that is zero from the start stays short
    let zeroFirst := Node.ofList [.nil, .atom [0x40], .atom [0x40]]
    let zeroLast := Node.ofList [.atom [0x40], .atom [0x40], .nil]
    have hfirst : multiply zeroFirst = .ok ⟨1874, .nil⟩ := by decide +kernel
    have hlast : multiply zeroLast = .ok ⟨1886, .nil⟩ := by decide +kernel
    refine ⟨zeroFirst, zeroLast, by decide, ?_⟩
    rw [hfirst, hlast]
    intro h
    cases h with
    | ok hcost => exact absurd hcost (by decide)

/-- Seven less two numbers of different widths, and a sum with a pair in it. -/
theorem argument_order_is_immaterial_difference :
    let args := Node.ofList [.atom [0x07], .atom [0xff], .atom [0x01, 0x00]]
    let args' := Node.ofList [.atom [0x07], .atom [0x01, 0x00], .atom [0xff]]
    args.items.Perm args'.items ∧ args.items.head? = args'.items.head? ∧
    subtract args = .ok ⟨1091, .atom [0xff, 0x08]⟩ ∧
    Alike id (subtract args) (subtract args') ∧
    Alike Reduction.value (multiply args) (multiply args') ∧
    Alike id (add (.ofList [.atom [0x07], args])) (add (.ofList [args, .atom [0x07]])) := by
  intro args args'
  have hperm : args.items.Perm args'.items := by decide
  have hpair : (Node.ofList [.atom [0x07], args]).items.Perm
      (Node.ofList [args, .atom [0x07]]).items := by decide
  obtain ⟨-, hmultiply, hsubtract⟩ := argument_order_is_immaterial.1 args args' hperm
  obtain ⟨hadd, -⟩ := argument_order_is_immaterial.1 _ _ hpair
  exact ⟨hperm, rfl, by decide +kernel, hsubtract rfl, hmultiply, hadd add (by simp)⟩

end Operator

end MeteredTree

import Mathlib.Algebra.BigOperators.Group.List.Basic
import Mathlib.Algebra.GroupWithZero.Nat
import MeteredTree.Proofs.Charges

/-! Charges one after the other on a new meter. All that the meter shows depends
on the limit and on the sum of the charges, so their order does not matter; only
an unlimited meter, or one whose sums all stay within the limit, takes them. -/

namespace MeteredTree.Meter

variable {limit : Option Cost} {total : Nat} {m m' : Meter}

/-- What a meter holds when its charges add up to `total`. The sum that passed
the limit is kept and says nothing about later charges. -/
inductive Holds : Option Cost → Nat → Meter → Prop
  | unbounded (total : Nat) : Holds none total (.unbounded (Cost.clamp total))
  | within {limit : Cost} {total : Nat} (h : Cost.clamp total ≤ limit) :
    Holds (some limit) total (.bounded limit (Cost.clamp total))
  | past {limit : Cost} {total : Nat} (h : limit < Cost.clamp total) (first : Cost) :
    Holds (some limit) total (.overrun limit first)

theorem holds_new (limit : Option Cost) : Holds limit 0 (new limit) := by
  cases limit with
  | none => exact .unbounded 0
  | some limit => exact .within UInt64.zero_le

theorem Holds.record (h : Holds limit total m) (cost : Cost) :
    Holds limit (total + cost.toNat) (m.record cost) := by
  cases h with
  | unbounded =>
    rw [record_unbounded_clamp]
    exact .unbounded _
  | @within limit _ h =>
    have htotal := Cost.satAdd_clamp total cost
    rcases UInt64.le_or_lt (Cost.clamp (total + cost.toNat)) limit with hle | hlt
    · rw [record_bounded_of_le (htotal ▸ hle), htotal]
      exact .within hle
    · rw [record_bounded_of_lt (htotal ▸ hlt)]
      exact .past hlt _
  | @past limit _ h first =>
    have hle : Cost.clamp total ≤ Cost.clamp (total + cost.toNat) :=
      Cost.clamp_mono (Nat.le_add_right _ _)
    exact .past (UInt64.lt_of_lt_of_le h hle) first

theorem Holds.recordAll (h : Holds limit total m) (costs : List Cost) :
    Holds limit (total + (costs.map UInt64.toNat).sum) (costs.foldl Meter.record m) := by
  induction costs generalizing total m with
  | nil => exact h
  | cons cost costs ih =>
    rw [List.foldl_cons, List.map_cons, List.sum_cons, ← Nat.add_assoc]
    exact ih (h.record cost)

theorem Holds.used_eq (h : Holds limit total m) (h' : Holds limit total m') : m.used = m'.used := by
  cases h with
  | unbounded => cases h' with | unbounded => rfl
  | within hle =>
    cases h' with
    | within => rfl
    | past hlt => exact absurd hle (UInt64.not_le.mpr hlt)
  | past hlt =>
    cases h' with
    | within hle => exact absurd hle (UInt64.not_le.mpr hlt)
    | past => rfl

theorem Holds.eq_unbounded (h : Holds none total m) : m = .unbounded (Cost.clamp total) := by
  cases h with
  | unbounded => rfl

theorem Holds.eq_bounded {limit : Cost} (h : Holds (some limit) total m)
    (hle : Cost.clamp total ≤ limit) : m = .bounded limit (Cost.clamp total) := by
  cases h with
  | within => rfl
  | past hlt => exact absurd hle (UInt64.not_le.mpr hlt)

theorem Holds.eq_overrun {limit : Cost} (h : Holds (some limit) total m)
    (hlt : limit < Cost.clamp total) : ∃ first, m = .overrun limit first := by
  cases h with
  | within hle => exact absurd hle (UInt64.not_le.mpr hlt)
  | past _ first => exact ⟨first, rfl⟩

section Sequence

variable (limit : Option Cost) (costs : List Cost)

/-- A new meter on which the first `k` costs were recorded. -/
def after (k : Nat) : Meter :=
  (costs.take k).foldl record (new limit)

/-- The sum of the first `k` costs, clamped once. -/
def totalAfter (k : Nat) : Cost :=
  Cost.clamp ((costs.take k).map UInt64.toNat).sum

theorem holds_after (k : Nat) :
    Holds limit ((costs.take k).map UInt64.toNat).sum (after limit costs k) := by
  have h := (holds_new limit).recordAll (costs.take k)
  rwa [Nat.zero_add] at h

theorem totalAfter_mono {j k : Nat} (h : j ≤ k) : totalAfter costs j ≤ totalAfter costs k := by
  obtain ⟨d, rfl⟩ := Nat.exists_eq_add_of_le h
  rw [totalAfter, totalAfter, List.take_add, List.map_append, List.sum_append]
  exact Cost.clamp_mono (Nat.le_add_right _ _)

/-- A charge that is refused is followed by refused ones only. -/
theorem check_after_of_le {j k : Nat} (h : j ≤ k) (hk : (after limit costs k).check = .ok ()) :
    (after limit costs j).check = .ok () := by
  cases limit with
  | none =>
    rw [(holds_after none costs j).eq_unbounded]
    rfl
  | some limit =>
    rcases UInt64.le_or_lt (totalAfter costs k) limit with hle | hlt
    · have hj := UInt64.le_trans (totalAfter_mono costs h) hle
      rw [(holds_after _ costs j).eq_bounded hj]
      rfl
    · obtain ⟨first, hpast⟩ := (holds_after _ costs k).eq_overrun hlt
      rw [hpast] at hk
      cases hk

theorem check_after_iff :
    (∀ k, (after limit costs k).check = .ok ()) ↔
      (after limit costs costs.length).check = .ok () := by
  refine ⟨fun h => h _, fun h k => ?_⟩
  rcases Nat.le_total k costs.length with hle | hle
  · exact check_after_of_le limit costs hle h
  · rw [after, List.take_length] at h
    rwa [after, List.take_of_length_le hle]

end Sequence

/-- The laws of a new meter. Without a limit it takes every charge and shows
their sum. With one it does so up to the first sum that passes the limit, what
is used and what remains making up the limit; from there on it refuses every
charge. In which order the costs are charged makes no difference in the end. -/
theorem meter_follows_running_sum (costs : List Cost) :
    (∀ k, let m := after none costs k
      m.check = .ok () ∧ m.used = .ok (totalAfter costs k) ∧ m.remaining = none) ∧
    (∀ (limit : Cost) (k : Nat), (∀ i ≤ k, totalAfter costs i ≤ limit) →
      let m := after (some limit) costs k
      m.check = .ok () ∧ m.used = .ok (totalAfter costs k) ∧
        ∃ left, m.remaining = some left ∧
          (totalAfter costs k).toNat + left.toNat = limit.toNat) ∧
    (∀ (limit : Cost) (j k : Nat), limit < totalAfter costs j → j ≤ k →
      let m := after (some limit) costs k
      m.check = .error (.costExceeded limit) ∧ m.used = .error (.costExceeded limit) ∧
        m.remaining = some 0 ∧
        ∀ cost, (m.record cost).check = .error (.costExceeded limit)) ∧
    ∀ (limit : Option Cost) (costs' : List Cost), costs.Perm costs' →
      ((∀ k, (after limit costs k).check = .ok ()) ↔
        ∀ k, (after limit costs' k).check = .ok ()) ∧
      (after limit costs costs.length).used = (after limit costs' costs'.length).used := by
  refine ⟨?_, ?_, ?_, ?_⟩
  · intro k m
    rw [show m = _ from (holds_after none costs k).eq_unbounded]
    exact ⟨rfl, rfl, rfl⟩
  · intro limit k h m
    have hle := h k (Nat.le_refl k)
    rw [show m = _ from (holds_after _ costs k).eq_bounded hle]
    refine ⟨rfl, rfl, limit - totalAfter costs k, rfl, ?_⟩
    rw [UInt64.toNat_sub_of_le _ _ hle]
    exact Nat.add_sub_of_le hle
  · intro limit j k hj hjk m
    have hlt := UInt64.lt_of_lt_of_le hj (totalAfter_mono costs hjk)
    obtain ⟨first, hpast⟩ := (holds_after _ costs k).eq_overrun hlt
    rw [show m = _ from hpast]
    exact ⟨rfl, rfl, rfl, fun _ => rfl⟩
  · intro limit costs' hperm
    have hsum := (hperm.map UInt64.toNat).sum_eq
    have hused : (after limit costs costs.length).used =
        (after limit costs' costs'.length).used := by
      have h := holds_after limit costs costs.length
      have h' := holds_after limit costs' costs'.length
      rw [List.take_length] at h h'
      rw [← hsum] at h'
      exact h.used_eq h'
    refine ⟨?_, hused⟩
    rw [check_after_iff, check_after_iff, check, check, hused]

theorem meter_follows_running_sum_fifty :
    let costs : List Cost := [30, 20, 1, 0]
    (∀ i ≤ 2, totalAfter costs i ≤ 50) ∧ 50 < totalAfter costs 3 ∧ costs.Perm [0, 1, 20, 30] ∧
    (after (some 50) costs 2).used = .ok 50 ∧
    (after (some 50) costs 4).check = .error (.costExceeded 50) ∧
    (after (some 50) costs 4).used = (after (some 50) [0, 1, 20, 30] 4).used := by
  intro costs
  have hwithin : ∀ i ≤ 2, totalAfter costs i ≤ 50 := by decide
  have hpast : 50 < totalAfter costs 3 := by decide
  have hperm : costs.Perm [0, 1, 20, 30] := by decide
  obtain ⟨-, hbefore, hfrom, horder⟩ := meter_follows_running_sum costs
  exact ⟨hwithin, hpast, hperm, (hbefore 50 2 hwithin).2.1, (hfrom 50 3 4 hpast (by decide)).1,
    (horder (some 50) _ hperm).2⟩

end MeteredTree.Meter

import MeteredTree.Meter

/-! Saturated charges as exact sums that are clamped once, and what a charge
does to a meter. -/

namespace MeteredTree

namespace Cost

theorem toNat_clamp (n : Nat) : (clamp n).toNat = min n 0xffffffffffffffff := by
  by_cases h : n < 0x10000000000000000
  · rw [clamp, if_pos h, UInt64.toNat_ofNat_of_lt' h]
    omega
  · rw [clamp, if_neg h]
    change 0xffffffffffffffff = _
    omega

@[simp] theorem clamp_toNat (c : Cost) : clamp c.toNat = c := by
  apply UInt64.toNat_inj.mp
  have hc : c.toNat < 0x10000000000000000 := c.toNat_lt
  rw [toNat_clamp]
  omega

theorem clamp_mono {a b : Nat} (h : a ≤ b) : clamp a ≤ clamp b := by
  rw [UInt64.le_iff_toNat_le, toNat_clamp, toNat_clamp]
  omega

theorem satAdd_clamp (n : Nat) (c : Cost) : satAdd (clamp n) c = clamp (n + c.toNat) := by
  apply UInt64.toNat_inj.mp
  rw [satAdd, toNat_clamp, toNat_clamp, toNat_clamp]
  omega

theorem le_satAdd (a b : Cost) : a ≤ satAdd a b := by
  have h := clamp_mono (Nat.le_add_right a.toNat b.toNat)
  simpa only [clamp_toNat, satAdd] using h

theorem le_max (c : Cost) : c ≤ max :=
  Nat.le_of_lt_succ c.toNat_lt

theorem lt_satAdd {a b : Cost} (ha : a < max) (hb : b ≠ 0) : a < satAdd a b := by
  have hp : b.toNat ≠ 0 := fun h => hb (UInt64.toNat_inj.mp h)
  have hm : a.toNat < 0xffffffffffffffff := ha
  rw [UInt64.lt_iff_toNat_lt, satAdd, toNat_clamp]
  omega

end Cost

namespace Meter

theorem record_unbounded_clamp (used : Nat) (cost : Cost) :
    (unbounded (Cost.clamp used)).record cost = unbounded (Cost.clamp (used + cost.toNat)) := by
  rw [record, Cost.satAdd_clamp]

theorem record_bounded_of_le {limit used cost : Cost} (h : Cost.satAdd used cost ≤ limit) :
    (bounded limit used).record cost = bounded limit (Cost.satAdd used cost) := by
  rw [record]
  exact if_neg (UInt64.not_lt.mpr h)

theorem record_bounded_of_lt {limit used cost : Cost} (h : limit < Cost.satAdd used cost) :
    (bounded limit used).record cost = overrun limit (Cost.satAdd used cost) := by
  rw [record]
  exact if_pos h

@[simp] theorem check_unbounded (used : Cost) : (unbounded used).check = .ok () := rfl

@[simp] theorem check_bounded (limit used : Cost) : (bounded limit used).check = .ok () := rfl

@[simp] theorem check_overrun (limit total : Cost) :
    (overrun limit total).check = .error (.costExceeded limit) := rfl

@[simp] theorem limit_record (m : Meter) (cost : Cost) : (m.record cost).limit = m.limit := by
  cases m with
  | unbounded used => rfl
  | bounded limit used =>
    simp only [record]
    split <;> rfl
  | overrun limit total => rfl

end Meter

end MeteredTree

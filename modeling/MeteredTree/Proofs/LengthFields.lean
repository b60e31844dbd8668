import MeteredTree.Wire.Size

/-! Length fields as numerals. A field of a first byte and `extra` further
ones is a mark followed by the length, so two fields of one size for the same
length are equal, and writing takes the smallest size that has room. -/

namespace MeteredTree

theorem bind_eq_ok {ε α β : Type} {x : Except ε α} {f : α → Except ε β} {b : β} :
    x.bind f = .ok b ↔ ∃ a, x = .ok a ∧ f a = .ok b := by
  cases x with
  | error e => simp [Except.bind]
  | ok a => simp [Except.bind]

theorem map_eq_ok {ε α β : Type} {x : Except ε α} {f : α → β} {b : β} :
    x.map f = .ok b ↔ ∃ a, x = .ok a ∧ f a = b := by
  cases x with
  | error e => simp [Except.map]
  | ok a => simp [Except.map]

namespace Wire

theorem takeExact_eq (n : Nat) (input : Bytes) :
    takeExact n input =
      if input.length < n then .error .badEncoding else .ok (input.take n, input.drop n) := by
  rw [takeExact, List.splitAt_eq]
  dsimp only
  rw [List.length_take]
  by_cases h : input.length < n
  · rw [if_pos h, if_pos (by omega)]
  · rw [if_neg h, if_neg (by omega)]

theorem takeExact_append {front : Bytes} (rest : Bytes) :
    takeExact front.length (front ++ rest) = .ok (front, rest) := by
  rw [takeExact_eq, if_neg (by simp), List.take_left, List.drop_left]

theorem takeExact_ok {n : Nat} {input front rest : Bytes}
    (h : takeExact n input = .ok (front, rest)) : front.length = n ∧ input = front ++ rest := by
  rw [takeExact_eq] at h
  split at h
  · cases h
  · next hn =>
    obtain ⟨rfl, rfl⟩ := Prod.mk.inj (Except.ok.inj h)
    exact ⟨List.length_take_of_le (Nat.le_of_not_lt hn), (List.take_append_drop n input).symm⟩

/-- The least first byte of a field with `extra` further bytes. -/
def fieldMark (extra : Nat) : Nat := 256 - Nat.pow 2 (7 - extra)

/-- How many lengths a field with `extra` further bytes has room for. -/
def fieldRoom (extra : Nat) : Nat := Nat.pow 2 (6 - extra) * Bytes.capacity extra

/-- A first byte and further ones that are read as the length `n`. -/
structure IsField (b : UInt8) (low : Bytes) (n : Nat) : Prop where
  marked : lastPlainByte < b ∧ b < pairMark
  size : leadingOnes b = low.length + 1
  value : n = b.toNat % Nat.pow 2 (6 - low.length) * Bytes.capacity low.length + Bytes.toNat low

theorem forall_byte {p : UInt8 → Prop} (h : ∀ n < 256, p (UInt8.ofNat n)) (b : UInt8) : p b := by
  have hb := h b.toNat b.toNat_lt
  rwa [UInt8.ofNat_toNat] at hb

theorem lt_pairMark {b : UInt8} (hb : b ≠ pairMark) : b < pairMark :=
  UInt8.lt_of_le_of_ne (UInt8.le_iff_toNat_le.mpr (Nat.le_of_lt_succ b.toNat_lt)) hb

theorem ne_of_le_lastPlainByte {b mark : UInt8} (hb : b ≤ lastPlainByte)
    (hmark : lastPlainByte < mark) : b ≠ mark := by
  rintro rfl
  exact UInt8.not_le.mpr hmark hb

theorem leadingOnes_bounds : ∀ b : UInt8, 0 < leadingOnes b ∧ leadingOnes b < 8 :=
  forall_byte (by decide +kernel)

theorem first_byte {b : UInt8} (hb : lastPlainByte < b ∧ b < pairMark) {extra : Nat}
    (h : leadingOnes b = extra + 1) :
    b.toNat = fieldMark extra + b.toNat % Nat.pow 2 (6 - extra) := by
  have hall : ∀ b : UInt8, ∀ e < 7, lastPlainByte < b ∧ b < pairMark → leadingOnes b = e + 1 →
      b.toNat = fieldMark e + b.toNat % Nat.pow 2 (6 - e) := forall_byte (by decide +kernel)
  have hlt := (leadingOnes_bounds b).2
  exact hall b extra (by omega) hb h

theorem isField_of_lt {extra n : Nat} (he : extra < 7) (hn : n < fieldRoom extra) :
    IsField (UInt8.ofNat (fieldMark extra + n / Bytes.capacity extra)) (Bytes.ofNat extra n) n := by
  have hall : ∀ e < 7, ∀ q < Nat.pow 2 (6 - e),
      (lastPlainByte < UInt8.ofNat (fieldMark e + q) ∧
        UInt8.ofNat (fieldMark e + q) < pairMark) ∧
      leadingOnes (UInt8.ofNat (fieldMark e + q)) = e + 1 ∧
      (UInt8.ofNat (fieldMark e + q)).toNat % Nat.pow 2 (6 - e) = q := by
    decide +kernel
  have hq : n / Bytes.capacity extra < Nat.pow 2 (6 - extra) :=
    Nat.div_lt_of_lt_mul (by rwa [Nat.mul_comm])
  obtain ⟨hmark, hones, hmod⟩ := hall extra he _ hq
  refine ⟨hmark, by rw [hones, Bytes.length_ofNat], ?_⟩
  rw [Bytes.length_ofNat, hmod, Bytes.toNat_ofNat, Nat.mul_comm, Nat.div_add_mod]

namespace IsField

variable {b b' : UInt8} {low low' : Bytes} {n : Nat}

theorem toNat_eq (h : IsField b low n) :
    Bytes.toNat (b :: low) = fieldMark low.length * Bytes.capacity low.length + n := by
  have hb := first_byte h.marked h.size
  have hv := h.value
  have hmul := congrArg (· * Bytes.capacity low.length) hb
  simp only [Nat.add_mul] at hmul
  rw [Bytes.toNat_cons, hmul]
  omega

theorem lt_room (h : IsField b low n) : n < fieldRoom low.length := by
  have hlow := Bytes.toNat_lt low
  have hmod : b.toNat % Nat.pow 2 (6 - low.length) + 1 ≤ Nat.pow 2 (6 - low.length) :=
    Nat.mod_lt _ (Nat.pow_pos (by decide))
  have hmul := Nat.mul_le_mul_right (Bytes.capacity low.length) hmod
  rw [Nat.add_mul, Nat.one_mul] at hmul
  have hv := h.value
  rw [fieldRoom]
  omega

theorem eq_of_length (h : IsField b low n) (h' : IsField b' low' n)
    (hlen : low.length = low'.length) : b :: low = b' :: low' := by
  have hfield := Bytes.ofNat_toNat (b :: low)
  have hfield' := Bytes.ofNat_toNat (b' :: low')
  rw [h.toNat_eq, List.length_cons, hlen] at hfield
  rw [h'.toNat_eq, List.length_cons] at hfield'
  exact hfield.symm.trans hfield'

end IsField

theorem isField_emptyMark {low : Bytes} {n : Nat} :
    IsField emptyMark low n ↔ low = [] ∧ n = 0 := by
  constructor
  · intro h
    have hlen : 1 = low.length + 1 := h.size
    obtain rfl : low = [] := List.length_eq_zero_iff.mp (by omega)
    exact ⟨rfl, by rw [h.value, Bytes.toNat_nil]; rfl⟩
  · rintro ⟨rfl, rfl⟩
    exact ⟨by decide, rfl, by rw [Bytes.toNat_nil]; rfl⟩

theorem fieldRoom_mono {e e' : Nat} (h : e ≤ e') (he : e' < 7) : fieldRoom e ≤ fieldRoom e' := by
  have hall : ∀ e' < 7, ∀ e ≤ e', fieldRoom e ≤ fieldRoom e' := by decide
  exact hall e' he e h

theorem sizeField_eq {n : Nat} (hn : n < atomCeiling) :
    ∃ extra < 5, (extra = 0 ∨ fieldRoom (extra - 1) ≤ n) ∧ n < fieldRoom extra ∧
      sizeField n = .ok (Bytes.ofNat (extra + 1) (fieldMark extra * Bytes.capacity extra + n)) := by
  rw [sizeField]
  by_cases h0 : n < 0x40
  · exact ⟨0, by decide, .inl rfl, h0, if_pos h0⟩
  by_cases h1 : n < 0x2000
  · exact ⟨1, by decide, .inr (Nat.le_of_not_lt h0), h1, by rw [if_neg h0, if_pos h1]; rfl⟩
  by_cases h2 : n < 0x100000
  · exact ⟨2, by decide, .inr (Nat.le_of_not_lt h1), h2, by
      rw [if_neg h0, if_neg h1, if_pos h2]; rfl⟩
  by_cases h3 : n < 0x8000000
  · exact ⟨3, by decide, .inr (Nat.le_of_not_lt h2), h3, by
      rw [if_neg h0, if_neg h1, if_neg h2, if_pos h3]; rfl⟩
  · exact ⟨4, by decide, .inr (Nat.le_of_not_lt h3), hn, by
      rw [if_neg h0, if_neg h1, if_neg h2, if_neg h3, if_pos hn]; rfl⟩

theorem sizeField_error {n : Nat} (hn : atomCeiling ≤ n) : sizeField n = .error .tooLarge := by
  rw [atomCeiling] at hn
  rw [sizeField, if_neg (by omega), if_neg (by omega), if_neg (by omega), if_neg (by omega),
    if_neg (by rw [atomCeiling]; omega)]

/-- The field that is written is read as its length, and no field of fewer
bytes is. -/
theorem sizeField_isField {n : Nat} (hn : n < atomCeiling) :
    ∃ b low, sizeField n = .ok (b :: low) ∧ IsField b low n ∧
      ∀ b' low', IsField b' low' n → low.length ≤ low'.length := by
  obtain ⟨extra, he, hlow, hroom, hfield⟩ := sizeField_eq hn
  have hcap := Bytes.capacity_pos extra
  refine ⟨_, _, ?_, isField_of_lt (by omega) hroom, ?_⟩
  · rw [hfield, Bytes.ofNat_cons, Nat.mul_comm, Nat.mul_add_div hcap, ← Bytes.ofNat_mod extra n,
      ← Bytes.ofNat_mod extra, Nat.mul_add_mod]
  · intro b' low' h'
    rw [Bytes.length_ofNat]
    refine Nat.le_of_not_lt fun hlt => ?_
    have hle := hlow.resolve_left (by omega)
    have hmono : fieldRoom low'.length ≤ fieldRoom (extra - 1) :=
      fieldRoom_mono (by omega) (by omega)
    have hlt' := h'.lt_room
    omega

theorem readSize_eq (b : UInt8) (input : Bytes) :
    readSize b input =
      if input.length < leadingOnes b - 1 then .error .badEncoding
      else
        let n := b.toNat % Nat.pow 2 (6 - (leadingOnes b - 1)) *
          Bytes.capacity (leadingOnes b - 1) + Bytes.toNat (input.take (leadingOnes b - 1))
        if n < atomCeiling then .ok (n, input.drop (leadingOnes b - 1)) else .error .tooLarge := by
  rw [readSize, takeExact_eq]
  by_cases h : input.length < leadingOnes b - 1
  · rw [if_pos h, if_pos h]
    rfl
  · rw [if_neg h, if_neg h]
    rfl

theorem IsField.readSize {b : UInt8} {low : Bytes} {n : Nat} (h : IsField b low n)
    (hn : n < atomCeiling) (rest : Bytes) : Wire.readSize b (low ++ rest) = .ok (n, rest) := by
  have hsize : leadingOnes b - 1 = low.length := by rw [h.size, Nat.add_sub_cancel]
  rw [readSize_eq, hsize, if_neg (by simp), List.take_left, List.drop_left]
  dsimp only
  rw [← h.value, if_pos hn]

theorem isField_of_readSize {b : UInt8} {input rest : Bytes} {n : Nat}
    (hb : lastPlainByte < b ∧ b < pairMark) (h : readSize b input = .ok (n, rest)) :
    ∃ low, input = low ++ rest ∧ IsField b low n ∧ n < atomCeiling := by
  have hones := (leadingOnes_bounds b).1
  rw [readSize_eq] at h
  split at h
  · cases h
  · next hlen =>
    have hlow : (input.take (leadingOnes b - 1)).length = leadingOnes b - 1 :=
      List.length_take_of_le (Nat.le_of_not_lt hlen)
    dsimp only at h
    split at h
    · next hn =>
      obtain ⟨rfl, rfl⟩ := Prod.mk.inj (Except.ok.inj h)
      refine ⟨input.take (leadingOnes b - 1), (List.take_append_drop _ _).symm, ⟨hb, ?_, ?_⟩, hn⟩
      · omega
      · rw [hlow]
    · cases h

end Wire

end MeteredTree

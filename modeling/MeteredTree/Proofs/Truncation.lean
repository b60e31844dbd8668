import MeteredTree.Proofs.Scanning

/-! Input that ends too early. A form that is cut off anywhere, in a length
field, in the bytes of an atom or between the parts of a pair, is malformed and
nothing else; so the bytes of a node, all of them and no others, decide how it
is read. -/

namespace MeteredTree

namespace Wire

theorem cut_append {front back cut lost : Bytes} (h : front ++ back = cut ++ lost) :
    (∃ more, more ≠ [] ∧ front = cut ++ more) ∨
      ∃ cut', cut = front ++ cut' ∧ back = cut' ++ lost := by
  rcases List.append_eq_append_iff.mp h with ⟨cut', hcut, hback⟩ | ⟨more, hfront, hmore⟩
  · exact .inr ⟨cut', hcut, hback⟩
  · by_cases hnil : more = []
    · subst hnil
      exact .inr ⟨[], by simpa using hfront.symm, hmore.symm⟩
    · exact .inl ⟨more, hnil, hfront⟩

theorem takeExact_cut {cut lost : Bytes} (hlost : lost ≠ []) :
    takeExact (cut ++ lost).length cut = .error .badEncoding := by
  have hpos := List.length_pos_iff.mpr hlost
  rw [takeExact_eq, if_pos (by rw [List.length_append]; omega)]

theorem IsField.readSize_cut {b : UInt8} {cut lost : Bytes} {n : Nat}
    (h : IsField b (cut ++ lost) n) (hlost : lost ≠ []) :
    Wire.readSize b cut = .error .badEncoding := by
  have hsize : leadingOnes b - 1 = (cut ++ lost).length := by rw [h.size, Nat.add_sub_cancel]
  rw [Wire.readSize, hsize, takeExact_cut hlost]
  rfl

theorem AtomForm.read_cut {form bytes cut lost : Bytes} (h : AtomForm form bytes)
    (hform : form = cut ++ lost) (hlost : lost ≠ []) : Node.read cut = .error .badEncoding := by
  cases cut with
  | nil => exact Node.read_nil
  | cons b cut =>
    cases h with
    | empty | plain =>
      obtain ⟨rfl, hnil⟩ := List.cons.inj hform
      exact absurd (List.append_eq_nil_iff.mp hnil.symm).2 hlost
    | @sized b' low bytes hfield hempty hlen =>
      obtain ⟨rfl, hrest⟩ := List.cons.inj hform
      obtain ⟨hmark, hpair⟩ := hfield.marked
      rw [Node.read_atom (UInt8.ne_of_lt hpair), readAtom_field hempty hmark]
      rcases cut_append hrest with ⟨more, hmore, rfl⟩ | ⟨cut', rfl, rfl⟩
      · rw [hfield.readSize_cut hmore]
        rfl
      · rw [hfield.readSize hlen]
        change (takeExact (cut' ++ lost).length cut').map _ = _
        rw [takeExact_cut hlost]
        rfl

theorem Form.read_cut {form cut lost : Bytes} {n : Node} (h : Form form n)
    (hform : form = cut ++ lost) (hlost : lost ≠ []) : Node.read cut = .error .badEncoding := by
  induction h generalizing cut lost with
  | atom h => exact h.read_cut hform hlost
  | @pair form form' first rest hfirst _ ihfirst ihrest =>
    cases cut with
    | nil => exact Node.read_nil
    | cons b cut =>
      obtain ⟨rfl, hrest⟩ := List.cons.inj hform
      rw [Node.read_pair]
      -- what is left ends within the first part, or after it within the rest
      rcases cut_append hrest with ⟨more, hmore, hcut⟩ | ⟨cut', rfl, hcut⟩
      · rw [ihfirst hcut hmore]
        rfl
      · rw [hfirst.read cut']
        change (Node.read cut').map _ = _
        rw [ihrest hcut hlost]
        rfl

end Wire

namespace Node

open Wire

theorem read_take {form : Bytes} {n : Node} (h : Form form n) {j : Nat}
    (hj : j < form.length) : read (form.take j) = .error .badEncoding := by
  have hlost : form.drop j ≠ [] := by
    rw [ne_eq, List.drop_eq_nil_iff]
    omega
  exact h.read_cut (List.take_append_drop j form).symm hlost

/-- A node is read from its own bytes: what follows them makes no difference,
and without the last of them neither the reader nor the scan finds a node. -/
theorem reading_depends_on_own_bytes {buffer : Bytes} {n : Node} {k : Nat}
    (h : readAt buffer 0 = .ok (n, k)) :
    (∀ tail, readAt (buffer.take k ++ tail) 0 = .ok (n, k)) ∧
    ∀ j < k, decode (buffer.take j) = .error .badEncoding ∧
      nodeLength (buffer.take j) = .error .badEncoding := by
  obtain ⟨hk, hform⟩ := form_of_readAt h
  have hlen : (buffer.take k).length = k := List.length_take_of_le hk
  refine ⟨?_, ?_⟩
  · intro tail
    simpa [hlen] using readAt_of_form hform [] tail
  · intro j hj
    have hcut := read_take hform (j := j) (by omega)
    rw [List.take_take, Nat.min_eq_left (Nat.le_of_lt hj)] at hcut
    refine ⟨?_, ?_⟩
    · rw [decode, hcut]
      rfl
    · rw [nodeLength, skipNodes_succ, hcut]
      rfl

/-- A pair whose first part has a longer length field than it needs, followed
by a byte of something else. -/
theorem reading_depends_on_own_bytes_pair :
    let buffer : Bytes := [0xff, 0xc0, 0x02, 0x05, 0x06, 0x80, 0x99]
    let n : Node := .pair (.atom [5, 6]) .nil
    readAt buffer 0 = .ok (n, 6) ∧
    (∀ tail, readAt ([0xff, 0xc0, 0x02, 0x05, 0x06, 0x80] ++ tail) 0 = .ok (n, 6)) ∧
    (∀ j < 6, decode (buffer.take j) = .error .badEncoding ∧
      nodeLength (buffer.take j) = .error .badEncoding) := by
  intro buffer n
  have h : readAt buffer 0 = .ok (n, 6) := by decide +kernel
  exact ⟨h, reading_depends_on_own_bytes h⟩

end Node

end MeteredTree

import MeteredTree.Proofs.Forms
import MeteredTree.Proofs.Grammar
import MeteredTree.Wire.Scan

/-! Scanning against reading. The count of nodes that are still to come stands
for the stacks of the reader, so a scan is a reading of which only the rest of
the input is kept. -/

namespace MeteredTree.Wire

theorem skipAtom_eq_readAtom (b : UInt8) (input : Bytes) :
    skipAtom b input = (readAtom b input).map Prod.snd := by
  rw [skipAtom, readAtom]
  by_cases hempty : b = emptyMark
  · simp [hempty, Except.map]
  · by_cases hplain : b ≤ lastPlainByte
    · simp [hempty, hplain, Except.map]
    · have hneither : ¬ (b = emptyMark ∨ b ≤ lastPlainByte) := not_or.mpr ⟨hempty, hplain⟩
      rw [if_neg hneither, if_neg hempty, if_neg hplain]
      cases readSize b input with
      | error e => rfl
      | ok r =>
        change (takeExact r.1 r.2).bind _ = (takeExact r.1 r.2).map Prod.snd
        cases takeExact r.1 r.2 with
        | error e => rfl
        | ok r' => rfl

theorem skipNodes_pairMark (count : Nat) (input : Bytes) :
    skipNodes (count + 1) (pairMark :: input) = skipNodes (count + 2) input := by
  rw [skipNodes, if_pos rfl]

theorem skipNodes_atom {b : UInt8} (hb : b ≠ pairMark) (count : Nat) (input : Bytes) :
    skipNodes (count + 1) (b :: input) =
      (readAtom b input).bind fun r => skipNodes count r.2 := by
  rw [skipNodes, if_neg hb]
  have hskip := skipAtom_eq_readAtom b input
  cases hr : readAtom b input with
  | error e =>
    have he : skipAtom b input = .error e := by rw [hskip, hr]; rfl
    split
    · next rest h => cases he.symm.trans h
    · next e' h =>
      obtain rfl := Except.error.inj (he.symm.trans h)
      rfl
  | ok r =>
    have ho : skipAtom b input = .ok r.2 := by rw [hskip, hr]; rfl
    split
    · next rest h =>
      obtain rfl := Except.ok.inj (ho.symm.trans h)
      rfl
    · next e h => cases ho.symm.trans h

/-- The first of the nodes to come is read, and the count goes down by one. -/
theorem skipNodes_succ (count : Nat) (input : Bytes) :
    skipNodes (count + 1) input = (Node.read input).bind fun r => skipNodes count r.2 := by
  match input with
  | [] =>
    rw [skipNodes, Node.read_nil]
    rfl
  | b :: input =>
    by_cases hb : b = pairMark
    · subst hb
      -- the two parts are two nodes to come, each on a shorter input
      rw [skipNodes_pairMark, skipNodes_succ (count + 1) input, Node.read_pair]
      cases hfirst : Node.read input with
      | error e => rfl
      | ok r =>
        have hlt := (Node.read_suffix hfirst).2
        change skipNodes (count + 1) r.2 = ((Node.read r.2).map _).bind _
        rw [skipNodes_succ count r.2]
        cases Node.read r.2 with
        | error e => rfl
        | ok r' => rfl
    · rw [skipNodes_atom hb, Node.read_atom hb]
      cases readAtom b input with
      | error e => rfl
      | ok r => rfl
termination_by input.length

theorem nodeLength_eq_readAt (buffer : Bytes) :
    nodeLength buffer = (Node.readAt buffer 0).map Prod.snd := by
  rw [nodeLength, skipNodes_succ, Node.readAt, List.drop_zero]
  cases Node.read buffer with
  | error e => rfl
  | ok r =>
    change (skipNodes 0 r.2).map _ = _
    rw [skipNodes]
    rfl

theorem Descends.error_kind {buffer : Bytes} {position : Nat}
    {outcome : Except WireError (Node × Nat)} (h : Descends buffer position outcome) {e : WireError}
    (he : outcome = .error e) : e = .badEncoding ∨ e = .tooLarge := by
  induction h with
  | ended | fieldMissing | bytesMissing => exact .inl (Except.error.inj he).symm
  | tooLarge => exact .inr (Except.error.inj he).symm
  | empty | plain | atom => cases he
  | firstError h hfirst ih => exact ih he
  | @pair position middle first outcome h hfirst hrest ihfirst ihrest =>
    cases outcome with
    | ok r => cases he
    | error e' => exact ihrest he

/-- What is cut off where the scan ends is the node that is read, all of it. -/
theorem splitNode_of_readAt {buffer : Bytes} {n : Node} {k : Nat}
    (h : Node.readAt buffer 0 = .ok (n, k)) :
    splitNode buffer = .ok (buffer.take k, buffer.drop k) ∧ (buffer.take k).length = k ∧
      Node.readAt (buffer.take k) 0 = .ok (n, k) := by
  obtain ⟨hk, hform⟩ := Node.form_of_readAt h
  have hlen : (buffer.take k).length = k := List.length_take_of_le hk
  have hread := Node.readAt_of_form hform [] []
  rw [List.nil_append, List.append_nil, List.length_nil, Nat.zero_add, hlen] at hread
  refine ⟨?_, hlen, hread⟩
  rw [splitNode, nodeLength_eq_readAt, h]
  change Except.ok (buffer.splitAt k) = _
  rw [List.splitAt_eq]

theorem splitNode_error_iff {buffer : Bytes} {e : WireError} :
    splitNode buffer = .error e ↔ Node.readAt buffer 0 = .error e := by
  rw [splitNode, nodeLength_eq_readAt]
  cases Node.readAt buffer 0 with
  | error e' => simp [Except.map]
  | ok r => simp [Except.map]

/-- The scan and the reader agree on every buffer: on where the node ends, and
on what is wrong if there is none. A buffer is split into the bytes of the node
and the rest. -/
theorem scan_agrees_with_reader (buffer : Bytes) :
    (∀ k, nodeLength buffer = .ok k ↔ ∃ n, Node.readAt buffer 0 = .ok (n, k)) ∧
    (∀ e, nodeLength buffer = .error e ↔ Node.readAt buffer 0 = .error e) ∧
    (∀ e, Node.readAt buffer 0 = .error e → e = .badEncoding ∨ e = .tooLarge) ∧
    (∀ n k, Node.readAt buffer 0 = .ok (n, k) → ∃ head tail,
      splitNode buffer = .ok (head, tail) ∧ head ++ tail = buffer ∧ head.length = k ∧
      Node.readAt head 0 = .ok (n, head.length) ∧ Node.decode head = .ok n) ∧
    ∀ e, splitNode buffer = .error e ↔ Node.readAt buffer 0 = .error e := by
  have hlength := nodeLength_eq_readAt buffer
  refine ⟨?_, ?_, ?_, ?_, fun e => splitNode_error_iff⟩
  · intro k
    rw [hlength, map_eq_ok]
    constructor
    · rintro ⟨⟨n, k'⟩, hr, rfl⟩
      exact ⟨n, hr⟩
    · rintro ⟨n, hr⟩
      exact ⟨(n, k), hr, rfl⟩
  · intro e
    rw [hlength]
    cases Node.readAt buffer 0 with
    | error e' => simp [Except.map]
    | ok r => simp [Except.map]
  · intro e he
    exact (descends_readAt buffer 0).error_kind he
  · intro n k h
    obtain ⟨hsplit, hlen, hread⟩ := splitNode_of_readAt h
    obtain ⟨r, hr, hnode⟩ := map_eq_ok.mp hread
    refine ⟨buffer.take k, buffer.drop k, hsplit, List.take_append_drop k buffer, hlen, ?_, ?_⟩
    · rw [hlen]
      exact hread
    · rw [List.drop_zero] at hr
      rw [Node.decode, hr]
      exact congrArg Except.ok (Prod.mk.inj hnode).1

end MeteredTree.Wire

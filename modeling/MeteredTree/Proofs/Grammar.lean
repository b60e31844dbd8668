import MeteredTree.Proofs.Descent

/-! The grammar of the wire form. Its rules give, for every position of every
buffer, a node and the position after it or the kind of the first failure, and
the loop that reads agrees with them. -/

namespace MeteredTree.Wire

/-- The first bits of a byte, so many of them and no more, are ones. -/
def LeadingOnes (b : UInt8) (count : Nat) : Prop :=
  1 ≤ count ∧ count ≤ 7 ∧ (∀ i < count, b.toNat.testBit (7 - i) = true) ∧
    b.toNat.testBit (7 - count) = false

/-- The number whose digits are the bits of `b` after its leading ones and the
further bytes of the field. -/
def fieldLength (b : UInt8) (extra : Bytes) : Nat :=
  Bytes.toNat (UInt8.ofNat (b.toNat % Nat.pow 2 (7 - extra.length)) :: extra)

/-- The grammar, read at a position of a buffer: the node and the position
after it, or the first failure. -/
inductive Descends (buffer : Bytes) : Nat → Except WireError (Node × Nat) → Prop
  | ended {position : Nat} (h : buffer[position]? = none) :
    Descends buffer position (.error .badEncoding)
  | pair {position middle : Nat} {first : Node} {outcome : Except WireError (Node × Nat)}
      (h : buffer[position]? = some 0xff)
      (hfirst : Descends buffer (position + 1) (.ok (first, middle)))
      (hrest : Descends buffer middle outcome) :
    Descends buffer position (outcome.map fun r => (.pair first r.1, r.2))
  | firstError {position : Nat} {e : WireError} (h : buffer[position]? = some 0xff)
      (hfirst : Descends buffer (position + 1) (.error e)) :
    Descends buffer position (.error e)
  | empty {position : Nat} (h : buffer[position]? = some 0x80) :
    Descends buffer position (.ok (.atom [], position + 1))
  | plain {position : Nat} {b : UInt8} (h : buffer[position]? = some b) (hb : b ≤ 0x7f) :
    Descends buffer position (.ok (.atom [b], position + 1))
  | fieldMissing {position count : Nat} {b : UInt8} (h : buffer[position]? = some b)
      (hb : b ≠ 0x80) (hones : LeadingOnes b count) (hlen : buffer.length < position + count) :
    Descends buffer position (.error .badEncoding)
  | tooLarge {position : Nat} {b : UInt8} {extra : Bytes} (h : buffer[position]? = some b)
      (hb : b ≠ 0x80) (hones : LeadingOnes b (extra.length + 1))
      (hextra : extra <+: buffer.drop (position + 1)) (hsize : 0x400000000 ≤ fieldLength b extra) :
    Descends buffer position (.error .tooLarge)
  | bytesMissing {position : Nat} {b : UInt8} {extra : Bytes} (h : buffer[position]? = some b)
      (hb : b ≠ 0x80) (hones : LeadingOnes b (extra.length + 1))
      (hextra : extra <+: buffer.drop (position + 1)) (hsize : fieldLength b extra < 0x400000000)
      (hlen : buffer.length < position + 1 + extra.length + fieldLength b extra) :
    Descends buffer position (.error .badEncoding)
  | atom {position : Nat} {b : UInt8} {extra bytes : Bytes} (h : buffer[position]? = some b)
      (hb : b ≠ 0x80) (hones : LeadingOnes b (extra.length + 1))
      (hbytes : extra ++ bytes <+: buffer.drop (position + 1))
      (hsize : fieldLength b extra < 0x400000000) (hlen : bytes.length = fieldLength b extra) :
    Descends buffer position (.ok (.atom bytes, position + 1 + extra.length + bytes.length))

theorem leadingOnes_iff {b : UInt8} {count : Nat} :
    LeadingOnes b count ↔ (lastPlainByte < b ∧ b < pairMark) ∧ leadingOnes b = count := by
  have hall : ∀ b : UInt8, ∀ c < 8,
      (1 ≤ c ∧ (∀ i < c, b.toNat.testBit (7 - i) = true) ∧ b.toNat.testBit (7 - c) = false) ↔
        (lastPlainByte < b ∧ b < pairMark) ∧ leadingOnes b = c := forall_byte (by decide +kernel)
  have hlt := (leadingOnes_bounds b).2
  constructor
  · rintro ⟨hpos, hc, hones, hzero⟩
    exact (hall b count (Nat.lt_succ_of_le hc)).mp ⟨hpos, hones, hzero⟩
  · rintro ⟨hmark, rfl⟩
    obtain ⟨hpos, hones, hzero⟩ := (hall b _ hlt).mpr ⟨hmark, rfl⟩
    exact ⟨hpos, Nat.le_of_lt_succ hlt, hones, hzero⟩

theorem fieldLength_eq {b : UInt8} {extra : Bytes} (h : LeadingOnes b (extra.length + 1)) :
    fieldLength b extra =
      b.toNat % Nat.pow 2 (6 - extra.length) * Bytes.capacity extra.length + Bytes.toNat extra := by
  have hall : ∀ b : UInt8, ∀ e < 7, b.toNat.testBit (6 - e) = false →
      (UInt8.ofNat (b.toNat % Nat.pow 2 (7 - e))).toNat = b.toNat % Nat.pow 2 (6 - e) :=
    forall_byte (by decide +kernel)
  obtain ⟨_, hle, _, hzero⟩ := h
  have hbit : 7 - (extra.length + 1) = 6 - extra.length := by omega
  rw [hbit] at hzero
  rw [fieldLength, Bytes.toNat_cons, hall b _ (by omega) hzero]

theorem readAtom_field {b : UInt8} (hb : b ≠ emptyMark) (hmark : lastPlainByte < b)
    (input : Bytes) :
    readAtom b input = (readSize b input).bind fun r => takeExact r.1 r.2 := by
  rw [readAtom, if_neg hb, if_neg (UInt8.not_le.mpr hmark)]
  rfl

theorem readSize_append {b : UInt8} {extra : Bytes} (h : LeadingOnes b (extra.length + 1))
    (rest : Bytes) :
    readSize b (extra ++ rest) =
      if fieldLength b extra < atomCeiling then .ok (fieldLength b extra, rest)
      else .error .tooLarge := by
  have hones := (leadingOnes_iff.mp h).2
  rw [readSize_eq, hones, Nat.add_sub_cancel, if_neg (by simp), List.take_left, List.drop_left,
    fieldLength_eq h]

theorem readAt_field {buffer : Bytes} {position : Nat} {b : UInt8} {extra : Bytes}
    (h : buffer[position]? = some b) (hb : b ≠ emptyMark)
    (hones : LeadingOnes b (extra.length + 1)) {rest : Bytes}
    (hrest : buffer.drop (position + 1) = extra ++ rest) :
    Node.readAt buffer position =
      if fieldLength b extra < atomCeiling then
        if rest.length < fieldLength b extra then .error .badEncoding
        else .ok (.atom (rest.take (fieldLength b extra)),
          position + 1 + extra.length + fieldLength b extra)
      else .error .tooLarge := by
  obtain ⟨hmark, hpair⟩ := (leadingOnes_iff.mp hones).1
  have hne : b ≠ pairMark := UInt8.ne_of_lt hpair
  have hlen := congrArg List.length hrest
  have hlt := (List.getElem?_eq_some_iff.mp h).1
  rw [List.length_drop, List.length_append] at hlen
  rw [Node.readAt_atom h hne, hrest, readAtom_field hb hmark, readSize_append hones]
  by_cases hsize : fieldLength b extra < atomCeiling
  · rw [if_pos hsize, if_pos hsize]
    change (takeExact (fieldLength b extra) rest).map _ = _
    rw [takeExact_eq]
    by_cases hshort : rest.length < fieldLength b extra
    · rw [if_pos hshort, if_pos hshort]
      rfl
    · rw [if_neg hshort, if_neg hshort]
      change Except.ok (Node.atom (rest.take (fieldLength b extra)),
        buffer.length - (rest.drop (fieldLength b extra)).length) = _
      rw [List.length_drop]
      congr 2
      omega
  · rw [if_neg hsize, if_neg hsize]
    rfl

theorem readAt_fieldMissing {buffer : Bytes} {position count : Nat} {b : UInt8}
    (h : buffer[position]? = some b) (hb : b ≠ emptyMark) (hones : LeadingOnes b count)
    (hlen : buffer.length < position + count) :
    Node.readAt buffer position = .error .badEncoding := by
  obtain ⟨⟨hmark, hpair⟩, hcount⟩ := leadingOnes_iff.mp hones
  have hne : b ≠ pairMark := UInt8.ne_of_lt hpair
  have hlt := (List.getElem?_eq_some_iff.mp h).1
  have hshort : (buffer.drop (position + 1)).length < leadingOnes b - 1 := by
    rw [List.length_drop]
    omega
  rw [Node.readAt_atom h hne, readAtom_field hb hmark, readSize_eq, if_pos hshort]
  rfl

/-- A byte that stands for itself, or the mark of the empty atom. -/
theorem readAt_short {buffer bytes : Bytes} {position : Nat} {b : UInt8}
    (h : buffer[position]? = some b) (hb : b ≠ pairMark)
    (hread : readAtom b (buffer.drop (position + 1)) = .ok (bytes, buffer.drop (position + 1))) :
    Node.readAt buffer position = .ok (.atom bytes, position + 1) := by
  have hlt := (List.getElem?_eq_some_iff.mp h).1
  rw [Node.readAt_atom h hb, hread]
  change Except.ok (Node.atom bytes, buffer.length - (buffer.drop (position + 1)).length) = _
  rw [List.length_drop]
  congr 2
  omega

theorem readAt_empty {buffer : Bytes} {position : Nat} (h : buffer[position]? = some emptyMark) :
    Node.readAt buffer position = .ok (.atom [], position + 1) :=
  readAt_short h (by decide) (by rw [readAtom, if_pos rfl])

theorem readAt_plain {buffer : Bytes} {position : Nat} {b : UInt8}
    (h : buffer[position]? = some b) (hb : b ≤ lastPlainByte) :
    Node.readAt buffer position = .ok (.atom [b], position + 1) := by
  have hpair : b ≠ pairMark := ne_of_le_lastPlainByte hb (by decide)
  have hempty : b ≠ emptyMark := ne_of_le_lastPlainByte hb (by decide)
  refine readAt_short h hpair ?_
  rw [readAtom, if_neg hempty, if_pos hb]

theorem readAt_of_descends {buffer : Bytes} {position : Nat}
    {outcome : Except WireError (Node × Nat)} (h : Descends buffer position outcome) :
    Node.readAt buffer position = outcome := by
  induction h with
  | ended h => exact Node.readAt_none h
  | @pair position middle first outcome h _ _ hfirst hrest =>
    rw [Node.readAt_pair h, hfirst, ← hrest]
    rfl
  | firstError h _ hfirst =>
    rw [Node.readAt_pair h, hfirst]
    rfl
  | empty h => exact readAt_empty h
  | plain h hb => exact readAt_plain h hb
  | fieldMissing h hb hones hlen => exact readAt_fieldMissing h hb hones hlen
  | tooLarge h hb hones hextra hsize =>
    obtain ⟨rest, hrest⟩ := hextra
    exact (readAt_field h hb hones hrest.symm).trans (if_neg (Nat.not_lt.mpr hsize))
  | @bytesMissing position b extra h hb hones hextra hsize hlen =>
    obtain ⟨rest, hrest⟩ := hextra
    have hall := congrArg List.length hrest
    rw [List.length_append, List.length_drop] at hall
    have hlt := (List.getElem?_eq_some_iff.mp h).1
    have hread := (readAt_field h hb hones hrest.symm).trans (if_pos hsize)
    rw [hread, if_pos (by omega)]
  | @atom position b extra bytes h hb hones hbytes hsize hlen =>
    obtain ⟨rest, hrest⟩ := hbytes
    rw [List.append_assoc] at hrest
    have hle : ¬ (bytes ++ rest).length < fieldLength b extra := by
      rw [List.length_append]
      omega
    have hread := (readAt_field h hb hones hrest.symm).trans (if_pos hsize)
    rw [hread, if_neg hle, ← hlen, List.take_left]

theorem descends_field {buffer : Bytes} {position : Nat} {b : UInt8}
    (h : buffer[position]? = some b) (hb : b ≠ emptyMark)
    (hmark : lastPlainByte < b ∧ b < pairMark) :
    Descends buffer position (Node.readAt buffer position) := by
  have hones : LeadingOnes b (leadingOnes b) := leadingOnes_iff.mpr ⟨hmark, rfl⟩
  have hlt := (List.getElem?_eq_some_iff.mp h).1
  by_cases hmissing : buffer.length < position + leadingOnes b
  · rw [readAt_fieldMissing h hb hones hmissing]
    exact .fieldMissing h hb hones hmissing
  · obtain ⟨extra, rest, hrest, hextra⟩ : ∃ extra rest,
        buffer.drop (position + 1) = extra ++ rest ∧ extra.length + 1 = leadingOnes b := by
      refine ⟨_, _, (List.take_append_drop (leadingOnes b - 1) _).symm, ?_⟩
      rw [List.length_take, List.length_drop]
      have hpos := hones.1
      omega
    rw [← hextra] at hones
    have hpre : extra <+: buffer.drop (position + 1) := ⟨rest, hrest.symm⟩
    have hlen := congrArg List.length hrest
    rw [List.length_drop, List.length_append] at hlen
    rw [readAt_field h hb hones hrest]
    by_cases hsize : fieldLength b extra < atomCeiling
    · rw [if_pos hsize]
      by_cases hshort : rest.length < fieldLength b extra
      · rw [if_pos hshort]
        exact .bytesMissing h hb hones hpre hsize (by omega)
      · rw [if_neg hshort]
        have htake : (rest.take (fieldLength b extra)).length = fieldLength b extra :=
          List.length_take_of_le (Nat.le_of_not_lt hshort)
        have hbytes : extra ++ rest.take (fieldLength b extra) <+: buffer.drop (position + 1) := by
          rw [hrest]
          exact List.prefix_append_right_inj _ |>.mpr (List.take_prefix _ _)
        have hatom := Descends.atom h hb hones hbytes hsize htake
        rwa [htake] at hatom
    · rw [if_neg hsize]
      exact .tooLarge h hb hones hpre (Nat.le_of_not_lt hsize)

theorem descends_readAt (buffer : Bytes) (position : Nat) :
    Descends buffer position (Node.readAt buffer position) := by
  cases h : buffer[position]? with
  | none =>
    rw [Node.readAt_none h]
    exact .ended h
  | some b =>
    have hlt := (List.getElem?_eq_some_iff.mp h).1
    by_cases hpair : b = pairMark
    · subst hpair
      have hfirst := descends_readAt buffer (position + 1)
      rw [Node.readAt_pair h]
      cases hr : Node.readAt buffer (position + 1) with
      | error e =>
        rw [hr] at hfirst
        exact .firstError h hfirst
      | ok r =>
        rw [hr] at hfirst
        have hnext := (Node.readAt_lt hr).1
        exact .pair h hfirst (descends_readAt buffer r.2)
    · by_cases hempty : b = emptyMark
      · subst hempty
        rw [readAt_empty h]
        exact .empty h
      · by_cases hplain : b ≤ lastPlainByte
        · rw [readAt_plain h hplain]
          exact .plain h hplain
        · exact descends_field h hempty ⟨UInt8.not_le.mp hplain, lt_pairMark hpair⟩
termination_by buffer.length - position

/-- The loop reads what the grammar says, in value, position and error. On the
way it never lacks a value for a pair, and it ends, with one value or with a
reading that fails. -/
theorem decoder_accepts_grammar (buffer : Bytes) (position : Nat) :
    (∀ outcome, Node.readAt buffer position = outcome ↔ Descends buffer position outcome) ∧
    (∀ r, (Reader.start (buffer.drop position)).Reaches r →
      (∀ todo, r.todo = .pair :: todo → 2 ≤ r.values.length) ∧
      (r.todo = [] → ∃ n, r.values = [n])) ∧
    ∃ last, (Reader.start (buffer.drop position)).Reaches last ∧ last.next = none ∧
      ((∃ n, last.todo = [] ∧ last.values = [n] ∧
          Node.read (buffer.drop position) = .ok (n, last.input)) ∨
        ∃ todo e, last.todo = .node :: todo ∧ Node.read (buffer.drop position) = .error e) := by
  refine ⟨?_, ?_, ?_⟩
  · intro outcome
    constructor
    · rintro rfl
      exact descends_readAt buffer position
    · exact readAt_of_descends
  · intro r hr
    have henough := hr.enough
    constructor
    · intro todo ht
      rw [ht] at henough
      exact henough.1
    · intro ht
      rw [ht] at henough
      exact List.length_eq_one_iff.mp henough
  · obtain ⟨last, hr, hn⟩ := (Reader.start (buffer.drop position)).exists_last
    have hanswer : last.answer = Node.read (buffer.drop position) := hr.answer_eq
    rw [← hanswer]
    exact ⟨last, hr, hn, Reader.last_cases hn hr.enough⟩

end MeteredTree.Wire

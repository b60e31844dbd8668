import MeteredTree.Proofs.LengthFields
import MeteredTree.Wire.Encode

/-! Writing by recursion on the node. The worklist writes one node after the
other, so a pair is its mark, then its first, then its rest; into a sink with
room for everything this gives one byte string, unless an atom is too long. A
sink with less room is left with the start of the same byte string. -/

namespace MeteredTree

open Wire

namespace Node

/-- The atoms of a node, from left to right. -/
def atoms : Node → List Bytes
  | .atom bytes => [bytes]
  | .pair first rest => first.atoms ++ rest.atoms

/-- Every atom is short enough to be written. -/
def Encodable (n : Node) : Prop := ∀ bytes ∈ n.atoms, bytes.length < atomCeiling

instance (n : Node) : Decidable n.Encodable :=
  inferInstanceAs (Decidable (∀ bytes ∈ n.atoms, bytes.length < atomCeiling))

theorem encodable_atom {bytes : Bytes} :
    (atom bytes).Encodable ↔ bytes.length < atomCeiling := by
  simp [Encodable, atoms]

theorem encodable_pair {first rest : Node} :
    (pair first rest).Encodable ↔ first.Encodable ∧ rest.Encodable := by
  simp only [Encodable, atoms, List.mem_append]
  constructor
  · intro h
    exact ⟨fun bytes hm => h bytes (.inl hm), fun bytes hm => h bytes (.inr hm)⟩
  · rintro ⟨hfirst, hrest⟩ bytes (hm | hm)
    · exact hfirst bytes hm
    · exact hrest bytes hm

theorem not_encodable_iff {n : Node} :
    ¬ n.Encodable ↔ ∃ bytes ∈ n.atoms, atomCeiling ≤ bytes.length := by
  simp [Encodable]

end Node

namespace Sink

/-- Goes on writing unless a write has failed. -/
def andThen (written : Sink × Except WireError Unit)
    (more : Sink → Sink × Except WireError Unit) : Sink × Except WireError Unit :=
  match written with
  | (s, .ok ()) => more s
  | (s, .error e) => (s, .error e)

theorem andThen_done (written : Sink × Except WireError Unit) :
    andThen written (fun s => (s, .ok ())) = written := by
  match written with
  | (s, .ok ()) => rfl
  | (s, .error e) => rfl

theorem andThen_assoc (written : Sink × Except WireError Unit)
    (more more' : Sink → Sink × Except WireError Unit) :
    andThen (andThen written more) more' = andThen written fun s => andThen (more s) more' := by
  match written with
  | (s, .ok ()) => rfl
  | (s, .error e) => rfl

theorem andThen_of_error {written : Sink × Except WireError Unit} {e : WireError}
    (h : written.2 = .error e) (more : Sink → Sink × Except WireError Unit) :
    (andThen written more).2 = .error e := by
  obtain ⟨s, outcome⟩ := written
  obtain rfl : outcome = .error e := h
  rfl

theorem append_append (stored : Array UInt8) (chunk chunk' : Bytes) :
    stored ++ chunk ++ chunk' = stored ++ (chunk ++ chunk') :=
  Array.ext' (by simp)

theorem size_append (stored : Array UInt8) (chunk : Bytes) :
    (stored ++ chunk).size = stored.size + chunk.length := by
  rw [← Array.length_toList, Array.toList_appendList, List.length_append, Array.length_toList]

theorem write_unbounded (stored : Array UInt8) (chunk : Bytes) :
    write ⟨stored, none⟩ chunk = (⟨stored ++ chunk, none⟩, .ok ()) := rfl

theorem write_bounded (capacity : Nat) (chunk : Bytes) :
    write (.bounded capacity) chunk =
      (⟨(chunk.take capacity).toArray, some capacity⟩,
        if chunk.length ≤ capacity then .ok () else .error .sinkFull) := by
  simp [write, bounded]

theorem write_nil (s : Sink) : s.write [] = (s, .ok ()) := by
  obtain ⟨stored, _ | capacity⟩ := s
  · simp [write]
  · simp [write]

/-- Chunks that are written one after the other leave what their concatenation
leaves, also where one of them is the first that does not fit. -/
theorem write_append (s : Sink) (chunk more : Bytes) :
    andThen (s.write chunk) (fun s => s.write more) = s.write (chunk ++ more) := by
  obtain ⟨stored, _ | capacity⟩ := s
  · simp [write, andThen, append_append]
  · by_cases hfits : chunk.length ≤ capacity - stored.size
    · have hroom : capacity - (stored ++ chunk).size = capacity - stored.size - chunk.length := by
        rw [size_append]
        omega
      have hmore : more.length ≤ capacity - stored.size - chunk.length ↔
          chunk.length + more.length ≤ capacity - stored.size := by omega
      simp [write, andThen, hfits, List.take_append, List.take_of_length_le hfits, append_append,
        hroom, hmore]
    · have hover : ¬ chunk.length + more.length ≤ capacity - stored.size := by omega
      have hnone : capacity - stored.size - chunk.length = 0 := by omega
      simp [write, andThen, hfits, hover, List.take_append, hnone]

theorem writeAll_eq_write (s : Sink) (chunks : List Bytes) :
    s.writeAll chunks = s.write chunks.flatten := by
  induction chunks generalizing s with
  | nil => exact (write_nil s).symm
  | cons chunk chunks ih =>
    have hrest : (fun s : Sink => s.writeAll chunks) = fun s => s.write chunks.flatten := funext ih
    rw [List.flatten_cons, ← write_append, ← hrest]
    rfl

end Sink

namespace Wire

theorem writeNodes_nil : writeNodes [] = fun s => (s, .ok ()) := by
  funext s
  rw [writeNodes]

theorem writeNodes_atom (bytes : Bytes) (todo : List Node) (s : Sink) :
    writeNodes (.atom bytes :: todo) s = Sink.andThen (writeAtom s bytes) (writeNodes todo) := by
  rw [writeNodes]
  rfl

theorem writeNodes_pair (first rest : Node) (todo : List Node) (s : Sink) :
    writeNodes (.pair first rest :: todo) s =
      Sink.andThen (s.write [pairMark]) (writeNodes (first :: rest :: todo)) := by
  rw [writeNodes]
  rfl

/-- The first node of a worklist is written first, and then the others. -/
theorem writeNodes_cons (n : Node) (todo : List Node) (s : Sink) :
    writeNodes (n :: todo) s = Sink.andThen (n.writeTo s) (writeNodes todo) := by
  induction n generalizing todo s with
  | atom bytes =>
    rw [Node.writeTo, writeNodes_atom, writeNodes_atom, writeNodes_nil, Sink.andThen_done]
  | pair first rest ihfirst ihrest =>
    have hfirst : ∀ more, writeNodes (first :: more) =
        fun s => Sink.andThen (first.writeTo s) (writeNodes more) :=
      fun more => funext (ihfirst more)
    have hrest : writeNodes (rest :: todo) =
        fun s => Sink.andThen (rest.writeTo s) (writeNodes todo) := funext (ihrest todo)
    rw [Node.writeTo, writeNodes_pair, writeNodes_pair, hfirst, hfirst, hrest, Sink.andThen_assoc]
    simp only [Sink.andThen_assoc]
    rfl

end Wire

namespace Node

theorem writeTo_atom (bytes : Bytes) (s : Sink) : (atom bytes).writeTo s = writeAtom s bytes := by
  rw [writeTo, writeNodes_atom, writeNodes_nil, Sink.andThen_done]

theorem writeTo_pair (first rest : Node) (s : Sink) :
    (pair first rest).writeTo s =
      Sink.andThen (s.write [pairMark]) fun s => Sink.andThen (first.writeTo s) rest.writeTo := by
  have hfirst : writeNodes [first, rest] = fun s => Sink.andThen (first.writeTo s) rest.writeTo :=
    funext (writeNodes_cons first [rest])
  rw [writeTo, writeNodes_pair, hfirst]

/-- The bytes of a node, by recursion on the node. -/
def code : Node → Except WireError Bytes
  | .atom bytes => (atomChunks bytes).map List.flatten
  | .pair first rest =>
    first.code.bind fun f => rest.code.map fun r => pairMark :: (f ++ r)

/-- A node is written as if its bytes were a single chunk. -/
theorem writeTo_eq_write {n : Node} {bytes : Bytes} (h : n.code = .ok bytes) (s : Sink) :
    n.writeTo s = s.write bytes := by
  induction n generalizing bytes s with
  | atom atom =>
    obtain ⟨chunks, hc, rfl⟩ := map_eq_ok.mp h
    simp only [writeTo_atom, writeAtom, hc, Sink.writeAll_eq_write]
  | pair first rest ihfirst ihrest =>
    obtain ⟨f, hf, hbind⟩ := bind_eq_ok.mp h
    obtain ⟨r, hr, rfl⟩ := map_eq_ok.mp hbind
    have hfirst : first.writeTo = fun s => s.write f := funext (ihfirst hf)
    have hrest : rest.writeTo = fun s => s.write r := funext (ihrest hr)
    rw [writeTo_pair, hfirst, hrest]
    simp only [Sink.write_append]
    rfl

theorem writeTo_of_code_error {n : Node} {e : WireError} (h : n.code = .error e)
    (stored : Array UInt8) : (n.writeTo ⟨stored, none⟩).2 = .error e := by
  induction n generalizing stored with
  | atom atom =>
    cases hc : atomChunks atom with
    | error e' =>
      rw [code, hc] at h
      obtain rfl := Except.error.inj h
      simp only [writeTo_atom, writeAtom, hc]
    | ok chunks =>
      rw [code, hc] at h
      cases h
  | pair first rest ihfirst ihrest =>
    rw [writeTo_pair, Sink.write_unbounded]
    cases hf : first.code with
    | error e' =>
      rw [code, hf] at h
      obtain rfl := Except.error.inj h
      exact Sink.andThen_of_error (ihfirst hf _) rest.writeTo
    | ok f =>
      cases hr : rest.code with
      | error e' =>
        rw [code, hf, hr] at h
        obtain rfl := Except.error.inj h
        have hw := ihrest hr (stored ++ [pairMark] ++ f)
        simpa only [Sink.andThen, writeTo_eq_write hf, Sink.write_unbounded] using hw
      | ok r =>
        rw [code, hf, hr] at h
        cases h

theorem encode_eq_code (n : Node) : n.encode = n.code := by
  rw [encode, Sink.unbounded]
  cases h : n.code with
  | ok bytes =>
    rw [writeTo_eq_write h, Sink.write_unbounded]
    simp
  | error e =>
    have hw := writeTo_of_code_error h #[]
    cases hs : n.writeTo ⟨#[], none⟩ with
    | mk s outcome =>
      rw [hs] at hw
      obtain rfl := hw
      rfl

theorem encode_pair (first rest : Node) :
    (pair first rest).encode =
      first.encode.bind fun f => rest.encode.map fun r => pairMark :: (f ++ r) := by
  rw [encode_eq_code, encode_eq_code, encode_eq_code, code]

theorem encode_atom (bytes : Bytes) :
    (atom bytes).encode = (atomChunks bytes).map List.flatten := by
  rw [encode_eq_code, code]

end Node

namespace Wire

/-- The three ways to write an atom: the mark of the empty one, a byte that
stands for itself, and the shortest length field before the bytes. -/
theorem atomChunks_cases {bytes : Bytes} (h : bytes.length < atomCeiling) :
    ∃ chunks, atomChunks bytes = .ok chunks ∧
      (bytes = [] ∧ chunks.flatten = [emptyMark] ∨
        (∃ b ≤ lastPlainByte, bytes = [b] ∧ chunks.flatten = [b]) ∨
        bytes ≠ [] ∧ ∃ b low, sizeField bytes.length = .ok (b :: low) ∧
          chunks.flatten = b :: (low ++ bytes)) := by
  obtain ⟨first, low, hfield, _⟩ := sizeField_isField h
  match bytes, hfield with
  | [], _ => exact ⟨_, rfl, .inl ⟨rfl, rfl⟩⟩
  | [b], hfield =>
    by_cases hb : b ≤ lastPlainByte
    · exact ⟨[[b]], if_pos hb, .inr (.inl ⟨b, hb, rfl, rfl⟩)⟩
    · refine ⟨[first :: low, [b]], ?_, .inr (.inr ⟨by simp, first, low, hfield, by simp⟩)⟩
      simp only [atomChunks, if_neg hb]
      change (sizeField [b].length).map _ = _
      rw [hfield]
      rfl
  | a :: b :: bytes, hfield =>
    refine ⟨[first :: low, a :: b :: bytes], ?_,
      .inr (.inr ⟨by simp, first, low, hfield, by simp⟩)⟩
    rw [atomChunks, hfield]
    · rfl
    all_goals simp

theorem atomChunks_error {bytes : Bytes} (h : atomCeiling ≤ bytes.length) :
    atomChunks bytes = .error .tooLarge := by
  match bytes, h with
  | [], h => exact absurd h (by decide)
  | [b], h => exact absurd h (by simp [atomCeiling])
  | a :: b :: bytes, h =>
    rw [atomChunks, sizeField_error h]
    · rfl
    all_goals simp

end Wire

namespace Node

theorem exists_encode {n : Node} (h : n.Encodable) : ∃ bytes, n.encode = .ok bytes := by
  induction n with
  | atom bytes =>
    obtain ⟨chunks, hc, _⟩ := atomChunks_cases (encodable_atom.mp h)
    exact ⟨chunks.flatten, by rw [encode_atom, hc]; rfl⟩
  | pair first rest ihfirst ihrest =>
    obtain ⟨hfirst, hrest⟩ := encodable_pair.mp h
    obtain ⟨f, hf⟩ := ihfirst hfirst
    obtain ⟨r, hr⟩ := ihrest hrest
    exact ⟨pairMark :: (f ++ r), by rw [encode_pair, hf, hr]; rfl⟩

theorem encode_of_not_encodable {n : Node} (h : ¬ n.Encodable) : n.encode = .error .tooLarge := by
  induction n with
  | atom bytes =>
    have hle := Nat.le_of_not_lt (mt encodable_atom.mpr h)
    rw [encode_atom, atomChunks_error hle]
    rfl
  | pair first rest ihfirst ihrest =>
    rw [encode_pair]
    by_cases hfirst : first.Encodable
    · obtain ⟨f, hf⟩ := exists_encode hfirst
      have hrest : ¬ rest.Encodable := fun hr => h (encodable_pair.mpr ⟨hfirst, hr⟩)
      rw [hf, ihrest hrest]
      rfl
    · rw [ihfirst hfirst]
      rfl

theorem encode_ok_iff {n : Node} : (∃ bytes, n.encode = .ok bytes) ↔ n.Encodable := by
  constructor
  · rintro ⟨bytes, hb⟩
    by_cases h : n.Encodable
    · exact h
    · rw [encode_of_not_encodable h] at hb
      cases hb
  · exact exists_encode

theorem encode_error_iff {n : Node} :
    n.encode = .error .tooLarge ↔ ∃ bytes ∈ n.atoms, atomCeiling ≤ bytes.length := by
  rw [← not_encodable_iff]
  constructor
  · intro he h
    obtain ⟨bytes, hb⟩ := exists_encode h
    rw [hb] at he
    cases he
  · exact encode_of_not_encodable

/-- Whatever room a sink has, it is left with the start of the code, as much of
it as there is room for; writing succeeds if that is all of it, and else the
sink is full. -/
theorem bounded_sink_holds_start_of_code {n : Node} (capacity : Nat)
    (h : ∀ bytes ∈ n.atoms, bytes.length < 0x400000000) :
    let written := n.writeTo (.bounded capacity)
    ∃ code, n.encode = .ok code ∧
      (written.2 = .ok () ↔ code.length ≤ capacity) ∧
      (capacity < code.length → written.2 = .error .sinkFull) ∧
      written.1.stored.toList = code.take (min capacity code.length) := by
  intro written
  obtain ⟨code, hcode⟩ := exists_encode h
  have hwritten : written = (Sink.bounded capacity).write code :=
    writeTo_eq_write (encode_eq_code n ▸ hcode) _
  rw [Sink.write_bounded] at hwritten
  refine ⟨code, hcode, ?_, ?_, ?_⟩
  · rw [hwritten]
    by_cases hfits : code.length ≤ capacity <;> simp [hfits]
  · intro hover
    rw [hwritten]
    simp [Nat.not_le_of_lt hover]
  · rw [hwritten]
    simp [List.take_eq_take_iff]

/-- A sink that is full within the bytes of an atom. -/
theorem bounded_sink_holds_start_of_code_pair :
    let n : Node := .pair (.atom [0x05, 0x06, 0x07]) .nil
    let written := n.writeTo (.bounded 4)
    (∀ bytes ∈ n.atoms, bytes.length < 0x400000000) ∧
    n.encode = .ok [0xff, 0x83, 0x05, 0x06, 0x07, 0x80] ∧
    written.2 = .error .sinkFull ∧ written.1.stored.toList = [0xff, 0x83, 0x05, 0x06] := by
  intro n written
  have h : ∀ bytes ∈ n.atoms, bytes.length < 0x400000000 := by decide
  have hcode : n.encode = .ok [0xff, 0x83, 0x05, 0x06, 0x07, 0x80] := by cbv
  obtain ⟨code, hcode', -, hfull, hstored⟩ := bounded_sink_holds_start_of_code 4 h
  obtain rfl := Except.ok.inj (hcode.symm.trans hcode')
  exact ⟨h, hcode, hfull (by decide), hstored⟩

end Node

end MeteredTree

import Mathlib.Data.List.Forall2
import MeteredTree.Proofs.Descent
import MeteredTree.Proofs.Encoding

/-! The forms in which a node is accepted. Reading takes any of them off the
input, whatever follows; writing gives one of them, and every other form of the
same node is longer. -/

namespace MeteredTree

namespace Wire

/-- The byte strings that are read as an atom, to their last byte. -/
inductive AtomForm : Bytes → Bytes → Prop
  | empty : AtomForm [emptyMark] []
  | plain {b : UInt8} (h : b ≤ lastPlainByte) : AtomForm [b] [b]
  | sized {b : UInt8} {low bytes : Bytes} (h : IsField b low bytes.length) (hb : b ≠ emptyMark)
      (hlen : bytes.length < atomCeiling) : AtomForm (b :: (low ++ bytes)) bytes

/-- The byte strings that are read as a node, to their last byte. -/
inductive Form : Bytes → Node → Prop
  | atom {form bytes : Bytes} (h : AtomForm form bytes) : Form form (.atom bytes)
  | pair {form form' : Bytes} {first rest : Node} (hfirst : Form form first)
      (hrest : Form form' rest) : Form (pairMark :: (form ++ form')) (.pair first rest)

theorem AtomForm.read {form bytes : Bytes} (h : AtomForm form bytes) (rest : Bytes) :
    ∃ b used, form = b :: used ∧ b ≠ pairMark ∧ readAtom b (used ++ rest) = .ok (bytes, rest) := by
  cases h with
  | empty => exact ⟨emptyMark, [], rfl, by decide, rfl⟩
  | @plain b hb =>
    have hpair : b ≠ pairMark := ne_of_le_lastPlainByte hb (by decide)
    have hempty : b ≠ emptyMark := ne_of_le_lastPlainByte hb (by decide)
    exact ⟨b, [], rfl, hpair, by rw [readAtom, if_neg hempty, if_pos hb]; rfl⟩
  | @sized b low bytes hfield hb hlen =>
    obtain ⟨hmark, hpair⟩ := hfield.marked
    refine ⟨b, low ++ bytes, rfl, UInt8.ne_of_lt hpair, ?_⟩
    rw [readAtom, if_neg hb, if_neg (UInt8.not_le.mpr hmark), List.append_assoc,
      hfield.readSize hlen]
    exact takeExact_append rest

theorem form_of_readAtom {b : UInt8} {input bytes rest : Bytes} (hb : b ≠ pairMark)
    (h : readAtom b input = .ok (bytes, rest)) :
    ∃ used, input = used ++ rest ∧ AtomForm (b :: used) bytes := by
  rw [readAtom] at h
  by_cases hempty : b = emptyMark
  · subst hempty
    rw [if_pos rfl] at h
    cases h
    exact ⟨[], rfl, .empty⟩
  · rw [if_neg hempty] at h
    by_cases hplain : b ≤ lastPlainByte
    · rw [if_pos hplain] at h
      cases h
      exact ⟨[], rfl, .plain hplain⟩
    · rw [if_neg hplain] at h
      have hmark : lastPlainByte < b ∧ b < pairMark := ⟨UInt8.not_le.mp hplain, lt_pairMark hb⟩
      obtain ⟨r, hsize, htake⟩ := bind_eq_ok.mp h
      obtain ⟨low, rfl, hfield, hlen⟩ := isField_of_readSize hmark hsize
      obtain ⟨hn, hr⟩ : bytes.length = r.1 ∧ r.2 = bytes ++ rest := takeExact_ok htake
      rw [← hn] at hfield hlen
      exact ⟨low ++ bytes, by rw [hr, List.append_assoc], .sized hfield hempty hlen⟩

theorem Form.read {form : Bytes} {n : Node} (h : Form form n) (rest : Bytes) :
    Node.read (form ++ rest) = .ok (n, rest) := by
  induction h generalizing rest with
  | atom h =>
    obtain ⟨b, used, rfl, hb, hr⟩ := h.read rest
    rw [List.cons_append, Node.read_atom hb, hr]
    rfl
  | pair _ _ ihfirst ihrest =>
    rw [List.cons_append, List.append_assoc, Node.read_pair, ihfirst]
    change (Node.read (_ ++ rest)).map _ = _
    rw [ihrest]
    rfl

theorem form_of_read {input rest : Bytes} {n : Node} (h : Node.read input = .ok (n, rest)) :
    ∃ form, input = form ++ rest ∧ Form form n := by
  match input with
  | [] =>
    rw [Node.read_nil] at h
    cases h
  | b :: input =>
    by_cases hb : b = pairMark
    · subst hb
      rw [Node.read_pair] at h
      obtain ⟨r, hfirst, hbind⟩ := bind_eq_ok.mp h
      obtain ⟨r', hrest, hnode⟩ := map_eq_ok.mp hbind
      obtain ⟨rfl, rfl⟩ := Prod.mk.inj hnode
      have hlt := (Node.read_suffix hfirst).2
      obtain ⟨form, hform, hf⟩ := form_of_read hfirst
      obtain ⟨form', hform', hf'⟩ := form_of_read hrest
      refine ⟨pairMark :: (form ++ form'), ?_, .pair hf hf'⟩
      rw [hform, hform', List.cons_append, List.append_assoc]
    · rw [Node.read_atom hb] at h
      obtain ⟨r, hr, hnode⟩ := map_eq_ok.mp h
      obtain ⟨rfl, rfl⟩ := Prod.mk.inj hnode
      obtain ⟨used, hused, hform⟩ := form_of_readAtom hb hr
      exact ⟨b :: used, by rw [hused]; rfl, .atom hform⟩
termination_by input.length

theorem Form.encodable {form : Bytes} {n : Node} (h : Form form n) : n.Encodable := by
  induction h with
  | atom h =>
    refine Node.encodable_atom.mpr ?_
    cases h with
    | empty | plain => simp [atomCeiling]
    | sized _ _ hlen => exact hlen
  | pair _ _ ihfirst ihrest => exact Node.encodable_pair.mpr ⟨ihfirst, ihrest⟩

theorem form_of_encode {n : Node} {code : Bytes} (h : n.encode = .ok code) : Form code n := by
  induction n generalizing code with
  | atom bytes =>
    have hlen := Node.encodable_atom.mp (Node.encode_ok_iff.mp ⟨code, h⟩)
    obtain ⟨chunks, hc, hcases⟩ := atomChunks_cases hlen
    rw [Node.encode_atom, hc] at h
    obtain rfl : chunks.flatten = code := Except.ok.inj h
    rcases hcases with ⟨rfl, hflat⟩ | ⟨b, hb, rfl, hflat⟩ | ⟨hne, b, low, hfield, hflat⟩
    · rw [hflat]
      exact .atom .empty
    · rw [hflat]
      exact .atom (.plain hb)
    · obtain ⟨b', low', hfield', his, _⟩ := sizeField_isField hlen
      obtain ⟨rfl, rfl⟩ := List.cons.inj (Except.ok.inj (hfield.symm.trans hfield'))
      have hb : b ≠ emptyMark := by
        rintro rfl
        exact hne (List.length_eq_zero_iff.mp (isField_emptyMark.mp his).2)
      rw [hflat]
      exact .atom (.sized his hb hlen)
  | pair first rest ihfirst ihrest =>
    rw [Node.encode_pair] at h
    obtain ⟨f, hf, hbind⟩ := bind_eq_ok.mp h
    obtain ⟨r, hr, rfl⟩ := map_eq_ok.mp hbind
    exact .pair (ihfirst hf) (ihrest hr)

theorem AtomForm.shortest {form bytes code : Bytes} (h : AtomForm form bytes)
    (hcode : (Node.atom bytes).encode = .ok code) :
    code.length ≤ form.length ∧ (code.length = form.length → code = form) := by
  have hlen := Node.encodable_atom.mp (Node.encode_ok_iff.mp ⟨code, hcode⟩)
  obtain ⟨chunks, hc, hcases⟩ := atomChunks_cases hlen
  rw [Node.encode_atom, hc] at hcode
  obtain rfl : chunks.flatten = code := Except.ok.inj hcode
  cases h with
  | empty =>
    rcases hcases with ⟨_, hflat⟩ | ⟨b, _, hbytes, _⟩ | ⟨hne, _⟩
    · rw [hflat]
      exact ⟨Nat.le_refl _, fun _ => rfl⟩
    · cases hbytes
    · exact absurd rfl hne
  | @plain b hb =>
    have hchunks : chunks = [[b]] := by
      have hplain : atomChunks [b] = .ok [[b]] := if_pos hb
      exact Except.ok.inj (hc.symm.trans hplain)
    rw [hchunks]
    exact ⟨Nat.le_refl _, fun _ => rfl⟩
  | @sized b low bytes hfield hb _ =>
    rw [List.length_cons, List.length_append]
    rcases hcases with ⟨rfl, hflat⟩ | ⟨b', _, rfl, hflat⟩ | ⟨_, b', low', hfield', hflat⟩
    · rw [hflat]
      refine ⟨Nat.le_add_left _ _, fun hl => ?_⟩
      -- a field of one byte that is read as zero is the mark of the empty atom
      have hlow : low = [] := List.length_eq_zero_iff.mp (by simpa using hl.symm)
      subst hlow
      have hsame := hfield.eq_of_length (isField_emptyMark.mpr ⟨rfl, rfl⟩) rfl
      exact absurd (List.cons.inj hsame).1 hb
    · rw [hflat, List.length_singleton]
      exact ⟨by omega, fun hl => by simp at hl⟩
    · obtain ⟨b'', low'', hfield'', his, hmin⟩ := sizeField_isField hlen
      obtain ⟨rfl, rfl⟩ := List.cons.inj (Except.ok.inj (hfield'.symm.trans hfield''))
      have hle := hmin b low hfield
      rw [hflat, List.length_cons, List.length_append]
      refine ⟨by omega, fun hl => ?_⟩
      have hsame := his.eq_of_length hfield (by omega)
      rw [← List.cons_append, hsame, List.cons_append]

/-- No form of a node is shorter than the one that is written, and no other is
as short. -/
theorem Form.shortest {form code : Bytes} {n : Node} (h : Form form n)
    (hcode : n.encode = .ok code) :
    code.length ≤ form.length ∧ (code.length = form.length → code = form) := by
  induction h generalizing code with
  | atom h => exact h.shortest hcode
  | @pair form form' first rest _ _ ihfirst ihrest =>
    rw [Node.encode_pair] at hcode
    obtain ⟨f, hf, hbind⟩ := bind_eq_ok.mp hcode
    obtain ⟨r, hr, rfl⟩ := map_eq_ok.mp hbind
    obtain ⟨hlef, heqf⟩ := ihfirst hf
    obtain ⟨hler, heqr⟩ := ihrest hr
    simp only [List.length_cons, List.length_append]
    refine ⟨by omega, fun hl => ?_⟩
    -- neither part can make up for bytes saved in the other
    rw [heqf (by omega), heqr (by omega)]

end Wire

open Wire

namespace Node

theorem readAt_of_form {form : Bytes} {n : Node} (h : Form form n) (front rest : Bytes) :
    readAt (front ++ (form ++ rest)) front.length = .ok (n, front.length + form.length) := by
  rw [readAt, List.drop_left, h.read rest]
  change Except.ok (n, (front ++ (form ++ rest)).length - rest.length) = _
  rw [List.length_append, List.length_append]
  congr 2
  omega

theorem form_of_readAt {buffer : Bytes} {k : Nat} {n : Node}
    (h : readAt buffer 0 = .ok (n, k)) : k ≤ buffer.length ∧ Form (buffer.take k) n := by
  obtain ⟨r, hr, hnext⟩ := map_eq_ok.mp h
  obtain ⟨rfl, rfl⟩ := Prod.mk.inj hnext
  obtain ⟨form, hform, hf⟩ := form_of_read hr
  obtain rfl : buffer = form ++ r.2 := hform
  refine ⟨Nat.sub_le _ _, ?_⟩
  rw [List.length_append, Nat.add_sub_cancel, List.take_left]
  exact hf

/-- Reads so many nodes one after the other, each with the position after it. -/
def readEach (buffer : Bytes) : Nat → Nat → Except WireError (List (Node × Nat))
  | 0, _ => .ok []
  | count + 1, position =>
    (readAt buffer position).bind fun r => (readEach buffer count r.2).map (r :: ·)

theorem readEach_of_forms {forms : List Bytes} {nodes : List Node}
    (h : List.Forall₂ Form forms nodes) (front rest : Bytes) :
    ∃ reads, readEach (front ++ (forms.flatten ++ rest)) nodes.length front.length = .ok reads ∧
      reads.map Prod.fst = nodes ∧
      ∀ i < nodes.length, (reads.map Prod.snd)[i]? =
        some (front.length + (forms.take (i + 1)).flatten.length) := by
  induction h generalizing front with
  | nil => exact ⟨[], rfl, rfl, fun i hi => absurd hi (Nat.not_lt_zero i)⟩
  | @cons form n forms nodes hf _ ih =>
    obtain ⟨reads, hreads, hnodes, hpos⟩ := ih (front ++ form)
    have hbuffer : front ++ ((form :: forms).flatten ++ rest) =
        front ++ form ++ (forms.flatten ++ rest) := by
      simp only [List.flatten_cons, List.append_assoc]
    have hread := readAt_of_form hf front (forms.flatten ++ rest)
    rw [← List.append_assoc] at hread
    rw [List.length_append] at hreads hpos
    refine ⟨(n, front.length + form.length) :: reads, ?_, ?_, ?_⟩
    · rw [hbuffer, List.length_cons, readEach, hread]
      change (readEach _ nodes.length (front.length + form.length)).map _ = _
      rw [hreads]
      rfl
    · rw [List.map_cons, hnodes]
    · intro i hi
      cases i with
      | zero => simp
      | succ i =>
        have hi' := hpos i (Nat.lt_of_succ_lt_succ hi)
        simp only [List.map_cons, List.getElem?_cons_succ, List.take_succ_cons, List.flatten_cons,
          List.length_append]
        rw [hi', Nat.add_assoc]

theorem exists_encodeAll {nodes : List Node} (h : ∀ n ∈ nodes, n.Encodable) :
    ∃ codes : List Bytes, nodes.map encode = codes.map Except.ok ∧
      List.Forall₂ Form codes nodes := by
  induction nodes with
  | nil => exact ⟨[], rfl, .nil⟩
  | cons n nodes ih =>
    obtain ⟨code, hc⟩ := exists_encode (h n List.mem_cons_self)
    obtain ⟨codes, hcodes, hforms⟩ := ih fun m hm => h m (List.mem_cons_of_mem n hm)
    exact ⟨code :: codes, by rw [List.map_cons, List.map_cons, hc, hcodes],
      .cons (form_of_encode hc) hforms⟩

/-- Nodes that are written one after the other are read back one after the
other, each up to where its own bytes end; and only an atom that is too long
keeps a node from being written. -/
theorem decode_undoes_encode :
    (∀ (nodes : List Node) (rest : Bytes),
      (∀ n ∈ nodes, ∀ bytes ∈ n.atoms, bytes.length < 0x400000000) →
      ∃ (codes : List Bytes) (reads : List (Node × Nat)),
        nodes.map encode = codes.map Except.ok ∧
        readEach (codes.flatten ++ rest) nodes.length 0 = .ok reads ∧
        reads.map Prod.fst = nodes ∧
        ∀ i < nodes.length,
          (reads.map Prod.snd)[i]? = some (codes.take (i + 1)).flatten.length) ∧
    ∀ n : Node, n.encode = .error .tooLarge ↔ ∃ bytes ∈ n.atoms, 0x400000000 ≤ bytes.length := by
  refine ⟨?_, fun n => encode_error_iff⟩
  intro nodes rest h
  obtain ⟨codes, hcodes, hforms⟩ := exists_encodeAll h
  obtain ⟨reads, hreads, hnodes, hpos⟩ := readEach_of_forms hforms [] rest
  refine ⟨codes, reads, hcodes, hreads, hnodes, fun i hi => ?_⟩
  rw [hpos i hi, List.length_nil, Nat.zero_add]

theorem decode_undoes_encode_two :
    let nodes : List Node := [.pair (.atom [1]) (.atom [0, 175]), .nil]
    (∀ n ∈ nodes, ∀ bytes ∈ n.atoms, bytes.length < 0x400000000) ∧
    ∃ (codes : List Bytes) (reads : List (Node × Nat)),
      nodes.map encode = codes.map Except.ok ∧
      readEach (codes.flatten ++ [0xff]) 2 0 = .ok reads ∧ reads.map Prod.fst = nodes ∧
      ∀ i < 2, (reads.map Prod.snd)[i]? = some (codes.take (i + 1)).flatten.length := by
  intro nodes
  have h : ∀ n ∈ nodes, ∀ bytes ∈ n.atoms, bytes.length < 0x400000000 := by decide
  exact ⟨h, decode_undoes_encode.1 nodes [0xff] h⟩

/-- Among all the forms of a node that are accepted, the one that is written is
the only shortest. So writing what was read changes nothing the second time,
and the first time only what was not written in that form. -/
theorem encode_is_shortest {buffer : Bytes} {n : Node} {k : Nat}
    (h : readAt buffer 0 = .ok (n, k)) :
    ∃ code, n.encode = .ok code ∧ readAt code 0 = .ok (n, code.length) ∧ code.length ≤ k ∧
      (code.length = k ↔ code = buffer.take k) ∧
      (decode buffer).bind encode = .ok code ∧ (decode code).bind encode = .ok code ∧
      (code = buffer.take k ↔ ∃ m : Node, m.encode = .ok (buffer.take k)) := by
  obtain ⟨hk, hform⟩ := form_of_readAt h
  have hlen : (buffer.take k).length = k := List.length_take_of_le hk
  obtain ⟨code, hcode⟩ := exists_encode hform.encodable
  obtain ⟨hle, heq⟩ := hform.shortest hcode
  rw [hlen] at hle heq
  have hdecode : ∀ {input rest : Bytes}, read input = .ok (n, rest) →
      (decode input).bind encode = .ok code := by
    intro input rest hr
    rw [decode, hr]
    exact hcode
  obtain ⟨r, hr, hnext⟩ := map_eq_ok.mp h
  obtain ⟨rfl, _⟩ := Prod.mk.inj hnext
  have hread : read code = .ok (r.1, []) := by
    simpa using (form_of_encode hcode).read []
  have hreadAt : readAt code 0 = .ok (r.1, code.length) := by
    simpa using readAt_of_form (form_of_encode hcode) [] []
  refine ⟨code, hcode, hreadAt, hle, ⟨heq, fun he => he ▸ hlen⟩, hdecode hr, hdecode hread, ?_⟩
  constructor
  · intro he
    exact ⟨r.1, he ▸ hcode⟩
  · rintro ⟨m, hm⟩
    -- the same bytes are read as one node only
    have hm' := (form_of_encode hm).read []
    rw [hform.read []] at hm'
    obtain ⟨rfl, _⟩ := Prod.mk.inj (Except.ok.inj hm')
    exact Except.ok.inj (hcode.symm.trans hm)

theorem encode_is_shortest_overlong :
    let buffer : Bytes := [0xff, 0xc0, 0x01, 0x05, 0x80, 0x99]
    let n : Node := .pair (.atom [5]) .nil
    readAt buffer 0 = .ok (n, 5) ∧
    ∃ code, n.encode = .ok code ∧ readAt code 0 = .ok (n, code.length) ∧ code.length ≤ 5 ∧
      (code.length = 5 ↔ code = buffer.take 5) ∧
      (decode buffer).bind encode = .ok code ∧ (decode code).bind encode = .ok code ∧
      (code = buffer.take 5 ↔ ∃ m : Node, m.encode = .ok (buffer.take 5)) := by
  intro buffer n
  have h : readAt buffer 0 = .ok (n, 5) := by decide +kernel
  exact ⟨h, encode_is_shortest h⟩

end Node

end MeteredTree

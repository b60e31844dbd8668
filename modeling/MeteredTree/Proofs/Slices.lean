import MeteredTree.Proofs.ValueOnly

/-! Slices and concatenations of byte strings. A slice is given by places that
are read as small integers, in a word of their own; where they lie in order
within the byte string, the slice is what stands between them. Cutting a
concatenation where its parts meet gives the parts back. -/

namespace MeteredTree

open Bytes

namespace Integer

theorem toNat_shiftIn (v : Int64) (x : UInt8) :
    (shiftIn v x).toBitVec.toNat = v.toBitVec.toNat * 256 % 0x10000000000000000 + x.toNat := by
  have hx : x.toNat < 2 ^ 8 := x.toNat_lt
  have hcount : (8 : Int64).toBitVec.smod 64 = 8#64 := by decide
  have hhigh : (v.toBitVec <<< 8#64).toNat = (v.toBitVec.toNat % 0x100000000000000) <<< 8 := by
    have height : (8#64).toNat = 8 := rfl
    rw [BitVec.shiftLeft_eq', BitVec.toNat_shiftLeft, height, Nat.shiftLeft_eq, Nat.shiftLeft_eq]
    omega
  have hbyte : (x.toUInt64.toInt64).toBitVec.toNat = x.toNat := by
    rw [UInt64.toBitVec_toInt64]
    exact UInt8.toNat_toUInt64 x
  rw [shiftIn, Int64.toBitVec_or, Int64.toBitVec_shiftLeft, hcount, BitVec.toNat_or, hhigh, hbyte,
    ← Nat.shiftLeft_add_eq_or_of_lt hx, Nat.shiftLeft_eq]
  omega

theorem toInt_shiftIn {v : Int64} (x : UInt8)
    (hv : -0x80000000000000 ≤ v.toInt ∧ v.toInt < 0x80000000000000) :
    (shiftIn v x).toInt = v.toInt * 256 + x.toNat := by
  have hx : x.toNat < 256 := x.toNat_lt
  have hnat := toNat_shiftIn v x
  have hlt := v.toBitVec.isLt
  have htoInt (w : Int64) : w.toInt = if 2 * w.toBitVec.toNat < 0x10000000000000000
      then (w.toBitVec.toNat : Int) else w.toBitVec.toNat - 0x10000000000000000 :=
    BitVec.toInt_eq_toNat_cond w.toBitVec
  rw [htoInt] at hv
  rw [htoInt, htoInt v, hnat]
  omega

theorem toInt_foldl_shiftIn {v : Int64} {m : Nat} {b : Bytes}
    (hv : -(capacity m : Int) ≤ v.toInt ∧ v.toInt < capacity m) (hm : m + b.length ≤ 7) :
    (b.foldl shiftIn v).toInt = v.toInt * capacity b.length + toNat b := by
  -- the invariant is room in the word: `m` bytes went in, and few are left
  induction b generalizing v m with
  | nil => simp [capacity]
  | cons x b ih =>
    rw [List.length_cons] at hm
    have hx : x.toNat < 256 := x.toNat_lt
    have hmono : capacity m ≤ capacity 6 := capacity_mono (by omega)
    have hsix : capacity 6 = 0x1000000000000 := by decide
    have hstep : (shiftIn v x).toInt = v.toInt * 256 + x.toNat := toInt_shiftIn x (by omega)
    have hsucc := capacity_succ m
    have hrest := ih (v := shiftIn v x) (m := m + 1) (by omega) (by omega)
    rw [List.foldl_cons, hrest, hstep, toNat_cons, List.length_cons, capacity_succ]
    grind

theorem toInt_signWord (b : Bytes) : (signWord b).toInt = if ofBytes b < 0 then -1 else 0 := by
  have hlt := toNat_lt b
  have htop : ∀ top : UInt8, top &&& 0x80 = 0 ↔ top < 128 := Wire.forall_byte (by decide +kernel)
  cases b with
  | nil => rfl
  | cons top low =>
    simp only [signWord, htop, ofBytes]
    split
    · rw [if_neg (by omega)]
      rfl
    · rw [if_pos (by omega)]
      rfl

theorem toInt_ofFewBytes {b : Bytes} (h : b.length ≤ 4) : (ofFewBytes b).toInt = ofBytes b := by
  have hcap : capacity 0 = 1 := rfl
  have hsign := toInt_signWord b
  have hvalue := toNat_eq_ite b
  have hall : (ofFewBytes b).toInt = (signWord b).toInt * capacity b.length + toNat b := by
    apply toInt_foldl_shiftIn (m := 0)
    · rw [hsign, hcap]
      split <;> omega
    · omega
  rw [hall, hsign]
  split at hvalue
  · next hneg =>
    rw [if_pos hneg]
    omega
  · next hneg =>
    rw [if_neg hneg]
    omega

end Integer

theorem seen_smallInteger {subject : Subject} {b : Bytes} {f : Int → Response} {n : Node} :
    seen (Arguments.smallInteger subject (.atom b) >>= f) = .ok n ↔
      b.length ≤ 4 ∧ seen (f (Integer.ofBytes b)) = .ok n := by
  rw [Arguments.smallInteger]
  split
  · next hb =>
    rw [Integer.toInt_ofFewBytes hb]
    exact (and_iff_right hb).symm
  · next hb =>
    constructor
    · intro h
      cases h
    · intro h
      exact absurd h.1 hb

namespace Operator

open Integer

/-- `part` stands in `s` from place `i` to before place `j`. -/
def IsSlice (s : Bytes) (i j : Int) (part : Bytes) : Prop :=
  ∃ before after, s = before ++ part ++ after ∧
    (before.length : Int) = i ∧ (before.length + part.length : Int) = j

theorem IsSlice.bounds {s part : Bytes} {i j : Int} (h : IsSlice s i j part) :
    0 ≤ i ∧ i ≤ j ∧ j ≤ s.length := by
  obtain ⟨before, after, rfl, rfl, rfl⟩ := h
  simp only [List.length_append]
  omega

theorem IsSlice.eq {s part : Bytes} {i j : Int} (h : IsSlice s i j part) :
    part = (s.drop i.toNat).take (j - i).toNat := by
  obtain ⟨before, after, rfl, rfl, rfl⟩ := h
  have hcount : ((before.length : Int) + part.length - before.length).toNat = part.length := by
    omega
  rw [hcount, Int.toNat_natCast, List.append_assoc, List.drop_left, List.take_left]

theorem isSlice_of_bounds {s : Bytes} {i j : Int} (hi : 0 ≤ i) (hij : i ≤ j)
    (hj : j ≤ s.length) : IsSlice s i j ((s.drop i.toNat).take (j - i).toNat) := by
  refine ⟨s.take i.toNat, s.drop j.toNat, ?_, ?_, ?_⟩
  · have hsum : (j - i).toNat + i.toNat = j.toNat := by omega
    rw [List.append_assoc, ← hsum, Nat.add_comm, ← List.drop_drop, List.take_append_drop,
      List.take_append_drop]
  · rw [List.length_take]
    omega
  · rw [List.length_take, List.length_take, List.length_drop]
    omega

theorem seen_slice_iff {args : Node} {s : Bytes} {i j : Int} {n : Node} :
    seen (slice args s i j) = .ok n ↔ ∃ part, n = .atom part ∧ IsSlice s i j part := by
  rw [slice]
  split
  · next hout =>
    constructor
    · intro h
      cases h
    · rintro ⟨part, -, hpart⟩
      have hin := hpart.bounds
      omega
  · next hin =>
    constructor
    · intro h
      obtain rfl := Except.ok.inj h
      exact ⟨_, rfl, isSlice_of_bounds (by omega) (by omega) (by omega)⟩
    · rintro ⟨part, rfl, hpart⟩
      rw [hpart.eq]
      rfl

section

variable {args n : Node} {s b c : Bytes} {i j : Int}

theorem seen_substr_iff (hargs : args.items = [.atom s, .atom b, .atom c]) :
    seen (substr args) = .ok n ↔ b.length ≤ 4 ∧ c.length ≤ 4 ∧
      ∃ part, n = .atom part ∧ IsSlice s (ofBytes b) (ofBytes c) part := by
  rw [substr, hargs]
  change seen (Arguments.smallInteger _ _ >>= fun start =>
    Arguments.smallInteger _ _ >>= fun stop => slice args s start stop) = _ ↔ _
  rw [seen_smallInteger, seen_smallInteger, seen_slice_iff]

theorem seen_substr_end_iff (hargs : args.items = [.atom s, .atom b]) :
    seen (substr args) = .ok n ↔ b.length ≤ 4 ∧
      ∃ part, n = .atom part ∧ IsSlice s (ofBytes b) s.length part := by
  rw [substr, hargs]
  change seen (Arguments.smallInteger _ _ >>= fun start => slice args s start s.length) = _ ↔ _
  rw [seen_smallInteger, seen_slice_iff]

theorem length_place_le (hs : s.length < 0x80000000) (hi : 0 ≤ i) (hle : i ≤ s.length) :
    (toBytes i).length ≤ 4 := by
  have hroom : HasRoom 4 i := by
    have hcap : capacity 4 = 4294967296 := by decide
    rw [HasRoom, hcap]
    omega
  exact hroom.length_toBytes_le

theorem seen_substr_places (hs : s.length < 0x80000000)
    (hargs : args.items = [.atom s, .atom (toBytes i), .atom (toBytes j)]) :
    seen (substr args) = .ok n ↔ ∃ part, n = .atom part ∧ IsSlice s i j part := by
  rw [seen_substr_iff hargs, ofBytes_toBytes, ofBytes_toBytes]
  constructor
  · rintro ⟨-, -, h⟩
    exact h
  · rintro ⟨part, hn, hpart⟩
    obtain ⟨hi, hij, hj⟩ := hpart.bounds
    have hstart := length_place_le hs hi (Int.le_trans hij hj)
    have hstop := length_place_le hs (Int.le_trans hi hij) hj
    exact ⟨hstart, hstop, part, hn, hpart⟩

theorem seen_substr_place (hs : s.length < 0x80000000)
    (hargs : args.items = [.atom s, .atom (toBytes i)]) :
    seen (substr args) = .ok n ↔ ∃ part, n = .atom part ∧ IsSlice s i s.length part := by
  rw [seen_substr_end_iff hargs, ofBytes_toBytes]
  constructor
  · rintro ⟨-, h⟩
    exact h
  · rintro ⟨part, hn, hpart⟩
    obtain ⟨hi, hle, -⟩ := hpart.bounds
    exact ⟨length_place_le hs hi hle, part, hn, hpart⟩

/-- The answer is what stands in `s` from `i` to before `j`, and there is one if
these are places of `s` in order. -/
def Cuts (args : Node) (s : Bytes) (i j : Int) : Prop :=
  ((∃ n, seen (substr args) = .ok n) ↔ 0 ≤ i ∧ i ≤ j ∧ j ≤ s.length) ∧
    ∀ n, seen (substr args) = .ok n → ∃ part, n = .atom part ∧ IsSlice s i j part

theorem cuts_of_iff
    (h : ∀ n, seen (substr args) = .ok n ↔ ∃ part, n = .atom part ∧ IsSlice s i j part) :
    Cuts args s i j := by
  refine ⟨⟨?_, ?_⟩, fun n => (h n).mp⟩
  · rintro ⟨n, hn⟩
    obtain ⟨part, -, hpart⟩ := (h n).mp hn
    exact hpart.bounds
  · rintro ⟨hi, hij, hj⟩
    exact ⟨_, (h _).mpr ⟨_, rfl, isSlice_of_bounds hi hij hj⟩⟩

end

theorem seen_concat {args : Node} {xs : List Bytes} (hargs : args.items = xs.map .atom) :
    seen (concat args) = .ok (.atom xs.flatten) := by
  rw [concat_of_atoms hargs]
  rfl

theorem seen_strlen (s : Bytes) :
    seen (strlen (.ofList [.atom s])) = .ok (.atom (toBytes s.length)) := by
  rw [strlen, Arguments.one, Node.items_ofList]
  rfl

theorem concat_slices {s : Bytes} {i : Int} {tail : Node} (hs : s.length < 0x80000000)
    (htail : ∃ part, tail = .atom part ∧ IsSlice s i s.length part) :
    ∃ head, seen (substr (.ofList [.atom s, .atom (toBytes 0), .atom (toBytes i)])) = .ok head ∧
      seen (concat (.ofList [head, tail])) = .ok (.atom s) := by
  obtain ⟨part, rfl, before, after, hsplit, hi, hend⟩ := htail
  have hafter : after = [] := by
    have hlength := congrArg List.length hsplit
    simp only [List.length_append] at hlength
    exact List.length_eq_zero_iff.mp (by omega)
  have hhead : IsSlice s 0 i before := ⟨[], part, by simp [hsplit, hafter], rfl, by simpa using hi⟩
  have hitems : (Node.ofList [.atom before, .atom part]).items = [before, part].map .atom :=
    Node.items_ofList _
  refine ⟨.atom before, (seen_substr_places hs (Node.items_ofList _)).mpr ⟨_, rfl, hhead⟩, ?_⟩
  rw [seen_concat hitems, hsplit, hafter]
  simp

theorem isSlice_flatten (before : List Bytes) (x : Bytes) (after : List Bytes) :
    IsSlice (before ++ x :: after).flatten ((before.map List.length).foldl (· + ·) 0 : Nat)
      ((before.map List.length).foldl (· + ·) 0 + x.length : Nat) x := by
  refine ⟨before.flatten, after.flatten, by simp, ?_, ?_⟩
  · rw [length_flatten_eq]
  · rw [length_flatten_eq]
    omega

/-- Slices lie between places of the byte string, read by their values; a byte
string is its two slices at any place, and a concatenation falls apart into its
arguments at their running lengths. -/
theorem slicing_undoes_joining :
    let total (xs : List Bytes) : Nat := (xs.map List.length).foldl (· + ·) 0
    (∀ (s : Bytes) (i j : Int) (args : Node), s.length < 0x80000000 →
      args.items = [.atom s, .atom (toBytes i), .atom (toBytes j)] → Cuts args s i j) ∧
    (∀ (s : Bytes) (i : Int) (args : Node), s.length < 0x80000000 →
      args.items = [.atom s, .atom (toBytes i)] →
      Cuts args s i s.length ∧
      ∀ tail, seen (substr args) = .ok tail →
        seen (substr (.ofList [.atom s, .atom (toBytes i), .atom (toBytes s.length)])) = .ok tail ∧
        ∃ head,
          seen (substr (.ofList [.atom s, .atom (toBytes 0), .atom (toBytes i)])) = .ok head ∧
          seen (concat (.ofList [head, tail])) = .ok (.atom s)) ∧
    (∀ (xs : List Bytes) (args : Node), total xs < 0x80000000 → args.items = xs.map .atom →
      ∃ joined, seen (concat args) = .ok joined ∧
        seen (strlen (.ofList [joined])) = .ok (.atom (toBytes (total xs))) ∧
        ∀ before x after, xs = before ++ x :: after →
          seen (substr (.ofList [joined, .atom (toBytes (total before)),
            .atom (toBytes (total before + x.length : Nat))])) = .ok (.atom x)) ∧
    (∀ (s b : Bytes) (args : Node), b.length ≤ 4 →
      (args.items = [.atom s, .atom b] → Cuts args s (ofBytes b) s.length) ∧
      ∀ c : Bytes, c.length ≤ 4 → args.items = [.atom s, .atom b, .atom c] →
        Cuts args s (ofBytes b) (ofBytes c)) := by
  intro total
  refine ⟨?_, ?_, ?_, ?_⟩
  · intro s i j args hs hargs
    exact cuts_of_iff fun n => seen_substr_places hs hargs
  · intro s i args hs hargs
    refine ⟨cuts_of_iff fun n => seen_substr_place hs hargs, ?_⟩
    intro tail htail
    have hslice := (seen_substr_place hs hargs).mp htail
    exact ⟨(seen_substr_places hs (Node.items_ofList _)).mpr hslice, concat_slices hs hslice⟩
  · intro xs args hxs hargs
    have hlength : xs.flatten.length = total xs := length_flatten_eq xs
    refine ⟨.atom xs.flatten, seen_concat hargs, ?_, ?_⟩
    · rw [seen_strlen, hlength]
    · rintro before x after rfl
      have hpart := isSlice_flatten before x after
      exact (seen_substr_places (by omega) (Node.items_ofList _)).mpr ⟨x, rfl, hpart⟩
  · intro s b args hb
    refine ⟨?_, ?_⟩
    · intro hargs
      apply cuts_of_iff
      intro n
      rw [seen_substr_end_iff hargs]
      simp [hb]
    · intro c hc hargs
      apply cuts_of_iff
      intro n
      rw [seen_substr_iff hargs]
      simp [hb, hc]

/-- Places with a byte of padding, and the same slice out of three parts. -/
theorem slicing_undoes_joining_padded :
    let hello : Bytes := [0x68, 0x65, 0x6c, 0x6c, 0x6f]
    let args := Node.ofList [.atom hello, .atom [0x00, 0x01], .atom [0x03]]
    Cuts args hello (ofBytes [0x00, 0x01]) (ofBytes [0x03]) ∧
    seen (substr args) = .ok (.atom [0x65, 0x6c]) ∧
    ∃ joined,
      seen (concat (.ofList [.atom [0x68], .atom [0x65, 0x6c], .atom [0x6c, 0x6f]])) = .ok joined ∧
      seen (substr (.ofList [joined, .atom (toBytes 1), .atom (toBytes 3)])) =
        .ok (.atom [0x65, 0x6c]) := by
  intro hello args
  have hsubstr : seen (substr args) = .ok (.atom [0x65, 0x6c]) := by decide +kernel
  obtain ⟨-, -, hjoin, hvalue⟩ := slicing_undoes_joining
  have hcuts := (hvalue hello [0x00, 0x01] args (by decide)).2 [0x03] (by decide) rfl
  obtain ⟨joined, hconcat, -, hparts⟩ := hjoin [[0x68], [0x65, 0x6c], [0x6c, 0x6f]]
    (.ofList [.atom [0x68], .atom [0x65, 0x6c], .atom [0x6c, 0x6f]]) (by decide) rfl
  have hpart := hparts [[0x68]] [0x65, 0x6c] [[0x6c, 0x6f]] rfl
  exact ⟨hcuts, hsubstr, joined, hconcat, hpart⟩

end Operator

end MeteredTree

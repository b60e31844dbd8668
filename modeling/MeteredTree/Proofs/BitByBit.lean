import MeteredTree.Proofs.ValueOnly

/-! Operators that work bit by bit. A number is determined by the bits of its
infinite two's-complement form, so what an operator does to single bits settles
what it does to numbers: how its arguments are grouped makes no difference, and
complements exchange conjunctions and disjunctions. -/

namespace MeteredTree

variable {f : Int → Int → Int} {start : Int} {g : Bool → Bool → Bool} {unit : Bool}

namespace Integer

/-- Bit `i` of the infinite two's-complement form. -/
def testBit (v : Int) (i : Nat) : Bool :=
  v / Nat.pow 2 i % 2 == 1

theorem testBit_ofNat (n i : Nat) : testBit (.ofNat n) i = n.testBit i := by
  have hquotient : Int.ofNat n / (Nat.pow 2 i : Nat) = (n / 2 ^ i : Nat) := rfl
  rw [testBit, hquotient, Nat.testBit_eq_decide_div_mod_eq, Bool.eq_iff_iff]
  simp only [beq_iff_eq, decide_eq_true_eq]
  omega

theorem testBit_negSucc (n i : Nat) : testBit (.negSucc n) i = !n.testBit i := by
  have hpos : (0 : Int) < (Nat.pow 2 i : Nat) := Int.natCast_pos.mpr (Nat.two_pow_pos i)
  have hquotient : Int.negSucc n / (Nat.pow 2 i : Nat) = -((n / 2 ^ i : Nat) + 1) := by
    rw [Int.negSucc_ediv n hpos]
    rfl
  rw [testBit, hquotient, Nat.testBit_eq_decide_div_mod_eq, Bool.eq_iff_iff]
  simp only [beq_iff_eq, Bool.not_eq_true', decide_eq_false_iff_not]
  omega

theorem testBit_sign_ne (m n : Nat) :
    testBit (.ofNat m) (m + n) ≠ testBit (.negSucc n) (m + n) := by
  -- the bit lies past both numbers, where only their signs are left
  have hi : m + n < 2 ^ (m + n) := Nat.lt_two_pow_self
  have hm : m.testBit (m + n) = false := Nat.testBit_lt_two_pow (by omega)
  have hn : n.testBit (m + n) = false := Nat.testBit_lt_two_pow (by omega)
  rw [testBit_ofNat, testBit_negSucc, hm, hn]
  decide

theorem eq_of_testBit_eq {v w : Int} (h : ∀ i, testBit v i = testBit w i) : v = w := by
  match v, w with
  | .ofNat m, .ofNat n =>
    simp only [testBit_ofNat] at h
    rw [Nat.eq_of_testBit_eq h]
  | .negSucc m, .negSucc n =>
    simp only [testBit_negSucc, Bool.not_inj_iff] at h
    rw [Nat.eq_of_testBit_eq h]
  | .ofNat m, .negSucc n => exact absurd (h (m + n)) (testBit_sign_ne m n)
  | .negSucc n, .ofNat m => exact absurd (h (m + n)).symm (testBit_sign_ne m n)

theorem testBit_and (v w : Int) (i : Nat) :
    testBit (and v w) i = (testBit v i && testBit w i) := by
  match v, w with
  | .ofNat m, .ofNat n | .ofNat m, .negSucc n | .negSucc m, .ofNat n | .negSucc m, .negSucc n =>
    cases hm : m.testBit i <;> cases hn : n.testBit i <;>
      simp only [and, testBit_ofNat, testBit_negSucc, Nat.testBit_and, Nat.testBit_or,
        Nat.testBit_xor, hm, hn] <;> rfl

theorem testBit_or (v w : Int) (i : Nat) :
    testBit (or v w) i = (testBit v i || testBit w i) := by
  match v, w with
  | .ofNat m, .ofNat n | .ofNat m, .negSucc n | .negSucc m, .ofNat n | .negSucc m, .negSucc n =>
    cases hm : m.testBit i <;> cases hn : n.testBit i <;>
      simp only [or, testBit_ofNat, testBit_negSucc, Nat.testBit_and, Nat.testBit_or,
        Nat.testBit_xor, hm, hn] <;> rfl

theorem testBit_xor (v w : Int) (i : Nat) :
    testBit (xor v w) i = (testBit v i ^^ testBit w i) := by
  match v, w with
  | .ofNat m, .ofNat n | .ofNat m, .negSucc n | .negSucc m, .ofNat n | .negSucc m, .negSucc n =>
    cases hm : m.testBit i <;> cases hn : n.testBit i <;>
      simp only [xor, testBit_ofNat, testBit_negSucc, Nat.testBit_xor, hm, hn] <;> rfl

theorem testBit_not (v : Int) (i : Nat) : testBit (Integer.not v) i = !testBit v i := by
  match v with
  | .ofNat n =>
    have hnot : Integer.not (.ofNat n) = .negSucc n := by
      rw [Integer.not, Int.ofNat_eq_natCast]
      omega
    rw [hnot, testBit_ofNat, testBit_negSucc]
  | .negSucc n =>
    have hnot : Integer.not (.negSucc n) = .ofNat n := by
      rw [Integer.not, Int.ofNat_eq_natCast]
      omega
    rw [hnot, testBit_ofNat, testBit_negSucc, Bool.not_not]

theorem testBit_zero (i : Nat) : testBit 0 i = false := by
  have h := testBit_ofNat 0 i
  rwa [Nat.zero_testBit] at h

theorem testBit_neg_one (i : Nat) : testBit (-1) i = true := by
  have h := testBit_negSucc 0 i
  rwa [Nat.zero_testBit] at h

/-- `f` does to every bit what `g` does, and all bits of `start` are `unit`,
which `g` leaves out of account. -/
structure ActsOnBits (f : Int → Int → Int) (start : Int) (g : Bool → Bool → Bool)
    (unit : Bool) : Prop where
  testBit_apply : ∀ v w i, testBit (f v w) i = g (testBit v i) (testBit w i)
  testBit_start : ∀ i, testBit start i = unit
  assoc : ∀ x y z, g (g x y) z = g x (g y z)
  apply_unit : ∀ x, g x unit = x

theorem actsOnBits_and : ActsOnBits and (-1) (· && ·) true :=
  ⟨testBit_and, testBit_neg_one, Bool.and_assoc, Bool.and_true⟩

theorem actsOnBits_or : ActsOnBits or 0 (· || ·) false :=
  ⟨testBit_or, testBit_zero, Bool.or_assoc, Bool.or_false⟩

theorem actsOnBits_xor : ActsOnBits xor 0 (· ^^ ·) false :=
  ⟨testBit_xor, testBit_zero, Bool.xor_assoc, Bool.xor_false⟩

namespace ActsOnBits

theorem testBit_foldl (h : ActsOnBits f start g unit) (vs : List Int) (v : Int) (i : Nat) :
    testBit (vs.foldl f v) i = (vs.map fun w => testBit w i).foldl g (testBit v i) := by
  induction vs generalizing v with
  | nil => rfl
  | cons w vs ih =>
    rw [List.foldl_cons, ih, h.testBit_apply]
    rfl

theorem apply_assoc (h : ActsOnBits f start g unit) (u v w : Int) :
    f (f u v) w = f u (f v w) := by
  apply eq_of_testBit_eq
  intro i
  simp only [h.testBit_apply, h.assoc]

theorem apply_right_comm (h : ActsOnBits f start g unit) (hcomm : ∀ x y, g x y = g y x)
    (u v w : Int) : f (f u v) w = f (f u w) v := by
  apply eq_of_testBit_eq
  intro i
  simp only [h.testBit_apply, h.assoc, hcomm (testBit v i)]

theorem apply_start (h : ActsOnBits f start g unit) (v : Int) : f v start = v := by
  apply eq_of_testBit_eq
  intro i
  rw [h.testBit_apply, h.testBit_start, h.apply_unit]

theorem apply_foldl (h : ActsOnBits f start g unit) (v : Int) (vs : List Int) :
    f v (vs.foldl f start) = vs.foldl f v := by
  have hassoc : Std.Associative f := ⟨h.apply_assoc⟩
  have hfold : vs.foldl f (f v start) = f v (vs.foldl f start) := List.foldl_assoc
  rw [← hfold, h.apply_start]

end ActsOnBits

theorem not_and (v w : Int) :
    Integer.not (and v w) = or (Integer.not v) (Integer.not w) := by
  apply eq_of_testBit_eq
  intro i
  simp only [testBit_not, testBit_and, testBit_or, Bool.not_and]

theorem not_foldl_and (vs : List Int) (v : Int) :
    Integer.not (vs.foldl and v) = (vs.map Integer.not).foldl or (Integer.not v) := by
  induction vs generalizing v with
  | nil => rfl
  | cons w vs ih =>
    rw [List.foldl_cons, ih, not_and]
    rfl

end Integer

open Integer Operator

/-- Arguments of an operator, of which neighbours may be put into a call of the
operator itself, to any depth. -/
inductive Nesting
  | nil
  | atom (bytes : Bytes) (rest : Nesting)
  | call (inner rest : Nesting)

namespace Nesting

/-- The atoms without the calls around them. -/
def flat : Nesting → List Bytes
  | nil => []
  | atom bytes rest => bytes :: rest.flat
  | call inner rest => inner.flat ++ rest.flat

/-- The argument list, with every inner call evaluated. -/
def arguments (op : Node → Response) : Nesting → Except EvalError (List Node)
  | nil => .ok []
  | atom bytes rest => do
    let others ← rest.arguments op
    .ok (.atom bytes :: others)
  | call inner rest => do
    let r ← inner.arguments op >>= fun items => op (.ofList items)
    let others ← rest.arguments op
    .ok (r.value :: others)

def eval (op : Node → Response) (n : Nesting) : Response := do
  let items ← n.arguments op
  op (.ofList items)

theorem arguments_combine (h : ActsOnBits f start g unit) (p : Primitive) (n : Nesting) :
    ∃ xs : List Bytes, n.arguments (combine p f start) = .ok (xs.map .atom) ∧
      ∀ v, (xs.map ofBytes).foldl f v = (n.flat.map ofBytes).foldl f v := by
  induction n with
  | nil => exact ⟨[], rfl, fun _ => rfl⟩
  | atom bytes rest ih =>
    obtain ⟨xs, hxs, hfold⟩ := ih
    refine ⟨bytes :: xs, ?_, fun v => hfold (f v (ofBytes bytes))⟩
    rw [arguments, hxs]
    rfl
  | call inner rest ihInner ihRest =>
    obtain ⟨xs, hxs, hfold⟩ := ihInner
    obtain ⟨ys, hys, hfold'⟩ := ihRest
    have hcall := combine_of_atoms p f start (Node.items_ofList (xs.map .atom))
    refine ⟨toBytes ((xs.map ofBytes).foldl f start) :: ys, ?_, ?_⟩
    · rw [arguments, hxs]
      change (combine p f start _ >>= _) = _
      rw [hcall, hys]
      rfl
    · intro v
      rw [List.map_cons, List.foldl_cons, ofBytes_toBytes, h.apply_foldl, hfold', hfold, flat,
        List.map_append, List.foldl_append]

theorem seen_eval_combine (h : ActsOnBits f start g unit) (p : Primitive) (n : Nesting) :
    seen (n.eval (combine p f start)) = .integer ((n.flat.map ofBytes).foldl f start) := by
  obtain ⟨xs, hxs, hfold⟩ := arguments_combine h p n
  have hcall := combine_of_atoms p f start (Node.items_ofList (xs.map .atom))
  rw [eval, hxs]
  change seen (combine p f start _) = _
  rw [hcall, hfold]
  rfl

end Nesting

namespace Operator

variable {args : Node} {xs : List Bytes}

/-- The response is an atom of the given bits, in the fewest bytes. -/
def HasBits (response : Response) (bits : Nat → Bool) : Prop :=
  ∃ cost b, response = .ok ⟨cost, .atom b⟩ ∧ IsMinimal b ∧
    ∀ i, Integer.testBit (ofBytes b) i = bits i

theorem hasBits_newInteger {cost : Cost} {v : Int} {bits : Nat → Bool}
    (h : ∀ i, Integer.testBit v i = bits i) : HasBits (.ok (.newInteger cost v)) bits := by
  refine ⟨_, toBytes v, rfl, isMinimal_toBytes v, ?_⟩
  rw [ofBytes_toBytes]
  exact h

theorem hasBits_combine (h : ActsOnBits f start g unit) (p : Primitive)
    (hargs : args.items = xs.map .atom) :
    HasBits (combine p f start args) fun i =>
      (xs.map fun x => Integer.testBit (ofBytes x) i).foldl g unit := by
  rw [combine_of_atoms p f start hargs]
  apply hasBits_newInteger
  intro i
  rw [h.testBit_foldl, h.testBit_start, List.map_map]
  rfl

theorem exists_seen_nesting (h : ActsOnBits f start g unit) (p : Primitive)
    (hargs : args.items = xs.map .atom) {n : Nesting} (hn : n.flat = xs) :
    ∃ node, seen (n.eval (combine p f start)) = .ok node ∧
      seen (combine p f start args) = .ok node := by
  refine ⟨_, Nesting.seen_eval_combine h p n, ?_⟩
  rw [combine_of_atoms p f start hargs, hn]
  rfl

theorem lognot_of_atom {a : Bytes} (h : args.items = [.atom a]) :
    lognot args =
      .ok (.newInteger (Price.lognot.plain 0 a.length) (Integer.not (ofBytes a))) := by
  rw [lognot, Arguments.oneOperand_of_atom h]
  rfl

theorem seen_lognot_logand (hargs : args.items = xs.map .atom) :
    seen (logand args >>= fun r => lognot (.ofList [r.value])) =
      .integer (Integer.not ((xs.map ofBytes).foldl Integer.and (-1))) := by
  have hand := combine_of_atoms .logand Integer.and (-1) hargs
  rw [logand, hand]
  change seen (lognot (.ofList [.atom _])) = _
  rw [lognot_of_atom (Node.items_ofList _), ofBytes_toBytes]
  rfl

theorem seen_logior_lognots (hargs : args.items = xs.map .atom) :
    seen (args.items.mapM (fun item => lognot (.ofList [item])) >>= fun rs =>
        logior (.ofList (rs.map Reduction.value))) =
      .integer (((xs.map ofBytes).map Integer.not).foldl Integer.or 0) := by
  have hnots := Arguments.mapM_of_atoms (f := fun item => lognot (.ofList [item]))
    (fun _ => lognot_of_atom (Node.items_ofList _)) xs
  rw [hargs, hnots]
  have hitems : ((xs.map fun a => Reduction.newInteger (Price.lognot.plain 0 a.length)
      (Integer.not (ofBytes a))).map Reduction.value) =
        (xs.map fun a => toBytes (Integer.not (ofBytes a))).map .atom := by
    rw [List.map_map, List.map_map]
    rfl
  have hvalues : (xs.map fun a => toBytes (Integer.not (ofBytes a))).map ofBytes =
      (xs.map ofBytes).map Integer.not := by
    simp only [List.map_map, Function.comp_def, ofBytes_toBytes]
  change seen (logior (.ofList (List.map _ _))) = _
  rw [hitems, logior, combine_of_atoms _ _ _ (Node.items_ofList _), hvalues]
  rfl

/-- The logical operators act on the infinite two's-complement forms of their
arguments bit by bit, in whatever way these are grouped, and give the shortest
form of the result. -/
theorem logic_acts_on_bits (hargs : args.items = xs.map .atom) :
    HasBits (logand args)
      (fun i => (xs.map fun x => Integer.testBit (ofBytes x) i).foldl (· && ·) true) ∧
    HasBits (logior args)
      (fun i => (xs.map fun x => Integer.testBit (ofBytes x) i).foldl (· || ·) false) ∧
    HasBits (logxor args)
      (fun i => (xs.map fun x => Integer.testBit (ofBytes x) i).foldl (· ^^ ·) false) ∧
    (∀ a, xs = [a] → HasBits (lognot args) fun i => !Integer.testBit (ofBytes a) i) ∧
    (∀ op ∈ [logand, logior, logxor], ∀ n : Nesting, n.flat = xs →
      ∃ node, seen (n.eval op) = .ok node ∧ seen (op args) = .ok node) ∧
    (∃ node,
      seen (logand args >>= fun r => lognot (.ofList [r.value])) = .ok node ∧
      seen (args.items.mapM (fun item => lognot (.ofList [item])) >>= fun rs =>
        logior (.ofList (rs.map Reduction.value))) = .ok node) := by
  refine ⟨hasBits_combine actsOnBits_and _ hargs, hasBits_combine actsOnBits_or _ hargs,
    hasBits_combine actsOnBits_xor _ hargs, ?_, ?_, ?_⟩
  · rintro a rfl
    rw [lognot_of_atom hargs]
    exact hasBits_newInteger (testBit_not (ofBytes a))
  · intro op hop n hn
    simp only [List.mem_cons, List.not_mem_nil, or_false] at hop
    rcases hop with rfl | rfl | rfl
    · exact exists_seen_nesting actsOnBits_and _ hargs hn
    · exact exists_seen_nesting actsOnBits_or _ hargs hn
    · exact exists_seen_nesting actsOnBits_xor _ hargs hn
  · refine ⟨_, seen_lognot_logand hargs, ?_⟩
    have hzero : Integer.not (-1) = 0 := rfl
    rw [seen_logior_lognots hargs, not_foldl_and, hzero]
    rfl

/-- A positive number of two bytes and a negative one of a single byte, whose
sign reaches into the other's first byte. -/
theorem logic_acts_on_bits_signs :
    let args := Node.ofList [.atom [0x01, 0x23], .atom [0xf0]]
    let n := Nesting.atom [0x01, 0x23] (.call (.atom [0xf0] (.call .nil .nil)) .nil)
    logand args = .ok ⟨657, .atom [0x01, 0x20]⟩ ∧
    (∀ i, Integer.testBit (ofBytes [0x01, 0x20]) i =
      (Integer.testBit (ofBytes [0x01, 0x23]) i && Integer.testBit (ofBytes [0xf0]) i)) ∧
    seen (n.eval logior) = seen (logior args) := by
  intro args n
  have hargs : args.items = [[0x01, 0x23], [0xf0]].map .atom := rfl
  have hand : logand args = .ok ⟨657, .atom [0x01, 0x20]⟩ := by decide +kernel
  obtain ⟨⟨cost, b, hb, -, hbits⟩, -, -, -, hnest, -⟩ := logic_acts_on_bits hargs
  obtain ⟨node, hcall, hflat⟩ := hnest logior (by simp) n rfl
  have hsame := hand.symm.trans hb
  simp only [Except.ok.injEq, Reduction.mk.injEq, Node.atom.injEq] at hsame
  obtain ⟨-, rfl⟩ := hsame
  exact ⟨hand, hbits, hcall.trans hflat.symm⟩

end Operator

end MeteredTree

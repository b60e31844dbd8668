import MeteredTree.Proofs.Forms

/-! Comparing two trees pair by pair. The loop over pending pairs ends, because
each round takes a leaf or a pair off both sides; it answers that all pending
pairs are of equal nodes, and equal nodes are those with one encoding. -/

namespace MeteredTree.Node

open Wire

/-- What one round does with the pending pairs: it answers, or leaves others. -/
def round : List (Node × Node) → Bool ⊕ List (Node × Node)
  | [] => .inl true
  | (.atom x, .atom y) :: pending => if x = y then .inr pending else .inl false
  | (.pair a b, .pair c d) :: pending => .inr ((a, c) :: (b, d) :: pending)
  | (.atom _, .pair _ _) :: _ => .inl false
  | (.pair _ _, .atom _) :: _ => .inl false

/-- The answer, if there is one after so many rounds. -/
def answerWithin : Nat → List (Node × Node) → Option Bool
  | 0, _ => none
  | rounds + 1, pending =>
    match round pending with
    | .inl answer => some answer
    | .inr pending => answerWithin rounds pending

theorem samePending_eq (pending : List (Node × Node)) :
    samePending pending = (round pending).elim id samePending := by
  rw [samePending.eq_def]
  split
  · rfl
  · next x y pending =>
    by_cases h : x = y
    · simp [round, h]
    · simp [round, h]
  · rfl
  · rfl
  · rfl

/-- A round that goes on has come nearer to the end on either side. -/
theorem totalSize_round {pending pending' : List (Node × Node)}
    (h : round pending = .inr pending') :
    totalSize (pending'.map Prod.fst) < totalSize (pending.map Prod.fst) ∧
      totalSize (pending'.map Prod.snd) < totalSize (pending.map Prod.snd) := by
  rw [round.eq_def] at h
  split at h
  · cases h
  · split at h
    · cases h
      simp [totalSize, size]
    · cases h
  · cases h
    simp only [totalSize, size, List.map_cons]
    omega
  · cases h
  · cases h

theorem answerWithin_eq (measure : List (Node × Node) → Nat)
    (hmeasure : ∀ {pending pending'}, round pending = .inr pending' →
      measure pending' < measure pending)
    {rounds : Nat} {pending : List (Node × Node)} (h : measure pending < rounds) :
    answerWithin rounds pending = some (samePending pending) := by
  induction rounds generalizing pending with
  | zero => exact absurd h (Nat.not_lt_zero _)
  | succ rounds ih =>
    rw [answerWithin, samePending_eq]
    cases hround : round pending with
    | inl answer => rfl
    | inr pending' =>
      have hlt := hmeasure hround
      exact ih (by omega)

theorem samePending_iff {pending : List (Node × Node)} :
    samePending pending = true ↔ ∀ p ∈ pending, p.1 = p.2 := by
  fun_induction samePending pending with
  | case1 => simp
  | case2 x pending ih => simpa using ih
  | case3 x y pending h => simp [h]
  | case4 a b c d pending ih =>
    rw [ih]
    simp [and_assoc]
  | case5 => simp
  | case6 => simp

theorem same_iff {a b : Node} : a.same b = true ↔ a = b := by
  rw [same, samePending_iff]
  simp

theorem encode_injective {a b : Node} {code : Bytes} (ha : a.encode = .ok code)
    (hb : b.encode = .ok code) : a = b := by
  have hread := (form_of_encode ha).read []
  rw [(form_of_encode hb).read []] at hread
  exact (Prod.mk.inj (Except.ok.inj hread)).1.symm

/-- The loop ends within as many rounds as the smaller tree has nodes and one
more. It tells whether the trees are equal, and whether they are written as the
same bytes, if they can be written. -/
theorem comparison_decides_equality (a b : Node) :
    (∀ rounds, min a.size b.size < rounds →
      answerWithin rounds [(a, b)] = some (a.same b)) ∧
    (a.same b = true ↔ a = b) ∧
    ((∀ bytes ∈ a.atoms, bytes.length < 0x400000000) →
      (∀ bytes ∈ b.atoms, bytes.length < 0x400000000) →
      ∃ code code', a.encode = .ok code ∧ b.encode = .ok code' ∧
        (a.same b = true ↔ code = code')) := by
  refine ⟨?_, same_iff, ?_⟩
  · intro rounds h
    have hside : a.size < rounds ∨ b.size < rounds := by omega
    rcases hside with ha | hb
    · exact answerWithin_eq (fun pending => totalSize (pending.map Prod.fst))
        (fun hround => (totalSize_round hround).1) ha
    · exact answerWithin_eq (fun pending => totalSize (pending.map Prod.snd))
        (fun hround => (totalSize_round hround).2) hb
  · intro ha hb
    obtain ⟨code, hcode⟩ := exists_encode ha
    obtain ⟨code', hcode'⟩ := exists_encode hb
    refine ⟨code, code', hcode, hcode', ?_⟩
    rw [same_iff]
    constructor
    · rintro rfl
      exact Except.ok.inj (hcode.symm.trans hcode')
    · rintro rfl
      exact encode_injective hcode hcode'

theorem comparison_decides_equality_last :
    let a : Node := .pair (.atom [1]) (.pair .nil (.atom [0, 175]))
    let b : Node := .pair (.atom [1]) (.pair .nil (.atom [175]))
    (∀ bytes ∈ a.atoms, bytes.length < 0x400000000) ∧
    (∀ bytes ∈ b.atoms, bytes.length < 0x400000000) ∧
    answerWithin 6 [(a, b)] = some false ∧
    ∃ code code', a.encode = .ok code ∧ b.encode = .ok code' ∧ code ≠ code' := by
  intro a b
  have ha : ∀ bytes ∈ a.atoms, bytes.length < 0x400000000 := by decide
  have hb : ∀ bytes ∈ b.atoms, bytes.length < 0x400000000 := by decide
  have hsame : a.same b = false := by decide +kernel
  obtain ⟨hends, -, hencode⟩ := comparison_decides_equality a b
  obtain ⟨code, code', hcode, hcode', hiff⟩ := hencode ha hb
  refine ⟨ha, hb, ?_, code, code', hcode, hcode', ?_⟩
  · rw [hends 6 (by decide), hsame]
  · rw [Ne, ← hiff, hsame]
    decide

end MeteredTree.Node

import Mathlib.Logic.Relation
import MeteredTree.Proofs.LengthFields
import MeteredTree.Wire.Decode

/-! Reading by recursive descent. The loop over a stack of readings does what
a reader would do that calls itself for the two parts of a pair, whatever else
stands on its stacks. -/

namespace MeteredTree

namespace Wire

theorem readAtom_suffix {b : UInt8} {input bytes rest : Bytes}
    (h : readAtom b input = .ok (bytes, rest)) : rest <:+ input := by
  rw [readAtom] at h
  split at h
  · cases h
    exact List.suffix_refl _
  · split at h
    · cases h
      exact List.suffix_refl _
    · obtain ⟨r, hsize, htake⟩ := bind_eq_ok.mp h
      have hsuffix : r.2 <:+ input := by
        rw [readSize_eq] at hsize
        split at hsize
        · cases hsize
        · dsimp only at hsize
          split at hsize
          · cases hsize
            exact List.drop_suffix _ _
          · cases hsize
      have hfront : r.2 = bytes ++ rest := (takeExact_ok htake).2
      exact (hfront ▸ List.suffix_append bytes rest).trans hsuffix

theorem readNodes_suffix {todo : List Reading} {values : List Node} {input rest : Bytes} {n : Node}
    (h : readNodes todo values input = .ok (n, rest)) : rest <:+ input := by
  fun_induction readNodes todo values input with
  | case1 value values input =>
    cases h
    exact List.suffix_refl _
  | case3 todo rest first values input ih => exact ih h
  | case7 todo values input ih => exact (ih h).trans (List.suffix_cons _ _)
  | case8 todo values b input hb bytes rest' hr _ ih =>
    exact (ih h).trans ((readAtom_suffix hr).trans (List.suffix_cons _ _))
  | case2 | case4 | case5 | case6 | case9 => cases h

theorem readNodes_pairMark (todo : List Reading) (values : List Node) (input : Bytes) :
    readNodes (.node :: todo) values (pairMark :: input) =
      readNodes (.node :: .node :: .pair :: todo) values input := by
  rw [readNodes, if_pos rfl]

theorem readNodes_atom {b : UInt8} (hb : b ≠ pairMark) (todo : List Reading) (values : List Node)
    (input : Bytes) :
    readNodes (.node :: todo) values (b :: input) =
      (readAtom b input).bind fun r => readNodes todo (.atom r.1 :: values) r.2 := by
  rw [readNodes, if_neg hb]
  split
  · next bytes rest h =>
    dsimp only
    rw [h]
    rfl
  · next e h =>
    rw [h]
    rfl

/-- A reading on top of the stack comes first, and what is below goes on with
its value. -/
theorem readNodes_node (todo : List Reading) (values : List Node) (input : Bytes) :
    readNodes (.node :: todo) values input =
      (Node.read input).bind fun r => readNodes todo (r.1 :: values) r.2 := by
  match input with
  | [] => rw [Node.read, readNodes, readNodes]; rfl
  | b :: input =>
    by_cases hb : b = pairMark
    · subst hb
      -- the parts are read from shorter inputs, and below them lie stacks of any
      -- kind: those of the loop on the left, empty ones on the right
      rw [Node.read, readNodes_pairMark, readNodes_pairMark, readNodes_node _ _ input,
        readNodes_node _ _ input]
      cases hfirst : Node.read input with
      | error e => rfl
      | ok r =>
        have hle := (readNodes_suffix hfirst).length_le
        change readNodes (.node :: .pair :: todo) (r.1 :: values) r.2 =
          (readNodes [.node, .pair] [r.1] r.2).bind _
        rw [readNodes_node _ _ r.2, readNodes_node _ _ r.2]
        cases hrest : Node.read r.2 with
        | error e => rfl
        | ok r' =>
          change readNodes (.pair :: todo) (r'.1 :: r.1 :: values) r'.2 =
            (readNodes [.pair] [r'.1, r.1] r'.2).bind _
          rw [readNodes, readNodes, readNodes]
          rfl
    · rw [Node.read, readNodes_atom hb, readNodes_atom hb]
      cases readAtom b input with
      | error e => rfl
      | ok r =>
        change _ = (readNodes [] [.atom r.1] r.2).bind _
        rw [readNodes]
        rfl
termination_by input.length

end Wire

open Wire

namespace Node

theorem read_nil : read [] = .error .badEncoding := by
  rw [read, readNodes]

theorem read_pair (input : Bytes) :
    read (pairMark :: input) =
      (read input).bind fun r => (read r.2).map fun r' => (.pair r.1 r'.1, r'.2) := by
  rw [read, readNodes_pairMark, readNodes_node]
  cases read input with
  | error e => rfl
  | ok r =>
    change readNodes [.node, .pair] [r.1] r.2 = (read r.2).map _
    rw [readNodes_node]
    cases read r.2 with
    | error e => rfl
    | ok r' =>
      change readNodes [.pair] [r'.1, r.1] r'.2 = .ok _
      rw [readNodes, readNodes]

theorem read_atom {b : UInt8} (hb : b ≠ pairMark) (input : Bytes) :
    read (b :: input) = (readAtom b input).map fun r => (.atom r.1, r.2) := by
  rw [read, readNodes_atom hb]
  cases readAtom b input with
  | error e => rfl
  | ok r =>
    change readNodes [] [.atom r.1] r.2 = .ok _
    rw [readNodes]

theorem read_suffix {input rest : Bytes} {n : Node} (h : read input = .ok (n, rest)) :
    rest <:+ input ∧ rest.length < input.length := by
  refine ⟨readNodes_suffix h, ?_⟩
  cases input with
  | nil =>
    rw [read_nil] at h
    cases h
  | cons b input =>
    rw [List.length_cons, Nat.lt_succ_iff]
    by_cases hb : b = pairMark
    · subst hb
      rw [read, readNodes_pairMark] at h
      exact (readNodes_suffix h).length_le
    · rw [read, readNodes_atom hb] at h
      obtain ⟨r, hr, hrest⟩ := bind_eq_ok.mp h
      exact ((readNodes_suffix hrest).trans (readAtom_suffix hr)).length_le

/-- The node at a position of a buffer, and the position after it. -/
def readAt (buffer : Bytes) (position : Nat) : Except WireError (Node × Nat) :=
  (read (buffer.drop position)).map fun r => (r.1, buffer.length - r.2.length)

theorem readAt_none {buffer : Bytes} {position : Nat} (h : buffer[position]? = none) :
    readAt buffer position = .error .badEncoding := by
  rw [readAt, List.drop_eq_nil_of_le (List.getElem?_eq_none_iff.mp h), read_nil]
  rfl

theorem drop_of_getElem? {buffer : Bytes} {position : Nat} {b : UInt8}
    (h : buffer[position]? = some b) : buffer.drop position = b :: buffer.drop (position + 1) := by
  obtain ⟨hlt, rfl⟩ := List.getElem?_eq_some_iff.mp h
  exact List.drop_eq_getElem_cons hlt

theorem readAt_atom {buffer : Bytes} {position : Nat} {b : UInt8}
    (h : buffer[position]? = some b) (hb : b ≠ pairMark) :
    readAt buffer position = (readAtom b (buffer.drop (position + 1))).map fun r =>
      (.atom r.1, buffer.length - r.2.length) := by
  rw [readAt, drop_of_getElem? h, read_atom hb]
  cases readAtom b (buffer.drop (position + 1)) with
  | error e => rfl
  | ok r => rfl

theorem readAt_pair {buffer : Bytes} {position : Nat} (h : buffer[position]? = some pairMark) :
    readAt buffer position = (readAt buffer (position + 1)).bind fun r =>
      (readAt buffer r.2).map fun r' => (.pair r.1 r'.1, r'.2) := by
  rw [readAt, drop_of_getElem? h, read_pair, readAt]
  cases hfirst : read (buffer.drop (position + 1)) with
  | error e => rfl
  | ok r =>
    have hsuffix : r.2 <:+ buffer := (read_suffix hfirst).1.trans (List.drop_suffix _ _)
    have hdrop : buffer.drop (buffer.length - r.2.length) = r.2 :=
      (List.suffix_iff_eq_drop.mp hsuffix).symm
    change ((read r.2).map _).map _ = (readAt buffer (buffer.length - r.2.length)).map _
    rw [readAt, hdrop]
    cases read r.2 with
    | error e => rfl
    | ok r' => rfl

theorem readAt_lt {buffer : Bytes} {position next : Nat} {n : Node}
    (h : readAt buffer position = .ok (n, next)) : position < next ∧ next ≤ buffer.length := by
  obtain ⟨r, hr, hnext⟩ := map_eq_ok.mp h
  obtain ⟨rfl, rfl⟩ := Prod.mk.inj hnext
  have hlt := (read_suffix hr).2
  rw [List.length_drop] at hlt
  omega

end Node

namespace Wire

/-- The state of the loop that reads: what is still to be done, the values, the
latest first, and the input. -/
structure Reader where
  todo : List Reading
  values : List Node
  input : Bytes

namespace Reader

def start (input : Bytes) : Reader := ⟨[.node], [], input⟩

/-- One turn of the loop, if it goes on after it. -/
def next : Reader → Option Reader
  | ⟨.pair :: todo, rest :: first :: values, input⟩ =>
    some ⟨todo, .pair first rest :: values, input⟩
  | ⟨.node :: todo, values, b :: input⟩ =>
    if b = pairMark then some ⟨.node :: .node :: .pair :: todo, values, input⟩
    else match readAtom b input with
      | .ok (bytes, rest) => some ⟨todo, .atom bytes :: values, rest⟩
      | .error _ => none
  | _ => none

/-- The loop goes through this state on its way from another. -/
abbrev Reaches := Relation.ReflTransGen fun r r' : Reader => r.next = some r'

/-- What the loop comes to from a state. -/
def answer (r : Reader) : Except WireError (Node × Bytes) := readNodes r.todo r.values r.input

/-- With `count` values there are two for each pair on the way down, and one
at the end. -/
def Enough : List Reading → Nat → Prop
  | [], count => count = 1
  | .node :: todo, count => Enough todo (count + 1)
  | .pair :: todo, count => 2 ≤ count ∧ Enough todo (count - 1)

theorem next_cases {r r' : Reader} (h : r.next = some r') :
    (∃ todo first rest values input, r = ⟨.pair :: todo, rest :: first :: values, input⟩ ∧
      r' = ⟨todo, .pair first rest :: values, input⟩) ∨
    (∃ todo values input, r = ⟨.node :: todo, values, pairMark :: input⟩ ∧
      r' = ⟨.node :: .node :: .pair :: todo, values, input⟩) ∨
    (∃ todo values b input bytes rest, r = ⟨.node :: todo, values, b :: input⟩ ∧ b ≠ pairMark ∧
      readAtom b input = .ok (bytes, rest) ∧ r' = ⟨todo, .atom bytes :: values, rest⟩) := by
  rw [next.eq_def] at h
  split at h
  · cases h
    exact .inl ⟨_, _, _, _, _, rfl, rfl⟩
  · next todo values b input =>
    by_cases hb : b = pairMark
    · subst hb
      rw [if_pos rfl] at h
      cases h
      exact .inr (.inl ⟨_, _, _, rfl, rfl⟩)
    · rw [if_neg hb] at h
      split at h
      · next bytes rest hr =>
        cases h
        exact .inr (.inr ⟨_, _, _, _, _, _, rfl, hb, hr, rfl⟩)
      · cases h
  · cases h

theorem answer_next {r r' : Reader} (h : r.next = some r') : r.answer = r'.answer := by
  obtain ⟨todo, first, rest, values, input, rfl, rfl⟩ | ⟨todo, values, input, rfl, rfl⟩ |
    ⟨todo, values, b, input, bytes, rest, rfl, hb, hr, rfl⟩ := next_cases h
  · rw [answer, readNodes]
    rfl
  · rw [answer, readNodes_pairMark]
    rfl
  · rw [answer, readNodes_atom hb, hr]
    rfl

theorem enough_next {r r' : Reader} (h : r.next = some r')
    (he : Enough r.todo r.values.length) : Enough r'.todo r'.values.length := by
  obtain ⟨todo, first, rest, values, input, rfl, rfl⟩ | ⟨todo, values, input, rfl, rfl⟩ |
    ⟨todo, values, b, input, bytes, rest, rfl, hb, hr, rfl⟩ := next_cases h
  · exact he.2
  · exact ⟨by simp, he⟩
  · exact he

theorem Reaches.enough {input : Bytes} {r : Reader} (h : (start input).Reaches r) :
    Enough r.todo r.values.length := by
  induction h with
  | refl => rfl
  | tail _ hs ih => exact enough_next hs ih

theorem Reaches.answer_eq {r r' : Reader} (h : r.Reaches r') : r'.answer = r.answer := by
  induction h with
  | refl => rfl
  | tail _ hs ih => rw [← ih, answer_next hs]

theorem measure_next {r r' : Reader} (h : r.next = some r') :
    3 * r'.input.length + r'.todo.length < 3 * r.input.length + r.todo.length := by
  obtain ⟨todo, first, rest, values, input, rfl, rfl⟩ | ⟨todo, values, input, rfl, rfl⟩ |
    ⟨todo, values, b, input, bytes, rest, rfl, hb, hr, rfl⟩ := next_cases h
  · simp
  · simp only [List.length_cons]
    omega
  · have hle := (readAtom_suffix hr).length_le
    simp only [List.length_cons]
    omega

theorem exists_last (r : Reader) : ∃ last, r.Reaches last ∧ last.next = none := by
  cases h : r.next with
  | none => exact ⟨r, .refl, h⟩
  | some r' =>
    have hlt := measure_next h
    obtain ⟨last, hr, hn⟩ := exists_last r'
    exact ⟨last, .head h hr, hn⟩
termination_by 3 * r.input.length + r.todo.length

theorem last_cases {r : Reader} (h : r.next = none) (he : Enough r.todo r.values.length) :
    (∃ n, r.todo = [] ∧ r.values = [n] ∧ r.answer = .ok (n, r.input)) ∨
      ∃ todo e, r.todo = .node :: todo ∧ r.answer = .error e := by
  match r, h, he with
  | ⟨[], values, input⟩, _, he =>
    obtain ⟨n, rfl⟩ := List.length_eq_one_iff.mp he
    exact .inl ⟨n, rfl, rfl, by rw [answer, readNodes]⟩
  | ⟨.pair :: todo, [], input⟩, _, he => exact absurd he.1 (by simp)
  | ⟨.pair :: todo, [_], input⟩, _, he => exact absurd he.1 (by simp)
  | ⟨.pair :: todo, rest :: first :: values, input⟩, h, _ => cases h
  | ⟨.node :: todo, values, []⟩, _, _ => exact .inr ⟨todo, _, rfl, by rw [answer, readNodes]⟩
  | ⟨.node :: todo, values, b :: input⟩, h, _ =>
    by_cases hb : b = pairMark
    · simp [next, hb] at h
    · cases hr : readAtom b input with
      | ok r => simp [next, hb, hr] at h
      | error e => exact .inr ⟨todo, e, rfl, by rw [answer, readNodes_atom hb, hr]; rfl⟩

end Reader

end Wire

end MeteredTree

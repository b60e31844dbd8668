import MeteredTree.Proofs.Runs

/-! Runs that stop over a part of the pending operations. While there is work
above that part it is not touched, so such runs can be put together. -/

namespace MeteredTree.Machine

/-- Takes at most `steps` steps, until only `base` is pending or a step fails. -/
def runTo (base : List Operation) (steps : Nat) (m : Machine) : Option (Except EvalError Machine) :=
  if m.pending = base then some (.ok m)
  else match steps with
    | 0 => none
    | steps + 1 =>
      match m.step.outcome with
      | .ok () => runTo base steps m.step.machine
      | .error e => some (.error e)

def Settles (base : List Operation) (m : Machine) (ending : Except EvalError Machine) : Prop :=
  ∃ steps, m.runTo base steps = some ending

theorem runTo_base {base : List Operation} {m : Machine} (h : m.pending = base) (steps : Nat) :
    m.runTo base steps = some (.ok m) := by
  cases steps <;> rw [runTo, if_pos h]

theorem runTo_zero {base : List Operation} {m : Machine} (h : m.pending ≠ base) :
    m.runTo base 0 = none := by
  rw [runTo, if_neg h]

theorem runTo_succ {base : List Operation} {m m' : Machine} (h : m.pending ≠ base)
    (hs : m.StepsTo m') (steps : Nat) : m.runTo base (steps + 1) = m'.runTo base steps := by
  obtain ⟨ho, rfl⟩ := hs
  rw [runTo, if_neg h]
  simp only [ho]

theorem runTo_error {base : List Operation} {m : Machine} {e : EvalError} (h : m.pending ≠ base)
    (he : m.step.outcome = .error e) (steps : Nat) :
    m.runTo base (steps + 1) = some (.error e) := by
  rw [runTo, if_neg h]
  simp only [he]

theorem runTo_of_stepsTo {base : List Operation} {m m' : Machine} {steps : Nat}
    {ending : Except EvalError Machine} (hs : m.StepsTo m') (hp : m.pending ≠ base)
    (h : m.runTo base steps = some ending) : ∃ k < steps, m'.runTo base k = some ending := by
  cases steps with
  | zero => simp [runTo_zero hp] at h
  | succ k => exact ⟨k, Nat.lt_succ_self k, (runTo_succ hp hs k).symm.trans h⟩

theorem runTo_unique {base : List Operation} {m : Machine} {n k : Nat}
    {ending ending' : Except EvalError Machine} (h : m.runTo base n = some ending)
    (h' : m.runTo base k = some ending') : ending = ending' := by
  fun_induction runTo base n m generalizing k with
  | case1 n m hp => exact Option.some.inj (h.symm.trans ((runTo_base hp k).symm.trans h'))
  | case2 m hp => cases h
  | case3 m hp n ho ih =>
    cases k with
    | zero => simp [runTo_zero hp] at h'
    | succ k => exact ih h ((runTo_succ hp ⟨ho, rfl⟩ k).symm.trans h')
  | case4 m hp n e he =>
    cases k with
    | zero => simp [runTo_zero hp] at h'
    | succ k => exact Option.some.inj (h.symm.trans ((runTo_error hp he k).symm.trans h'))

theorem Settles.unique {base : List Operation} {m : Machine}
    {ending ending' : Except EvalError Machine} (h : m.Settles base ending)
    (h' : m.Settles base ending') : ending = ending' := by
  obtain ⟨n, h⟩ := h
  obtain ⟨k, h'⟩ := h'
  exact runTo_unique h h'

theorem settles_base {base : List Operation} {m : Machine} (h : m.pending = base) :
    m.Settles base (.ok m) :=
  ⟨0, runTo_base h 0⟩

theorem settles_error {base : List Operation} {m : Machine} {e : EvalError}
    (h : m.pending ≠ base) (he : m.step.outcome = .error e) : m.Settles base (.error e) :=
  ⟨1, runTo_error h he 0⟩

theorem StepsTo.settles {base : List Operation} {m m' : Machine}
    {ending : Except EvalError Machine} (hs : m.StepsTo m') (h : m.pending ≠ base)
    (h' : m'.Settles base ending) : m.Settles base ending := by
  obtain ⟨steps, h'⟩ := h'
  exact ⟨steps + 1, (runTo_succ h hs steps).trans h'⟩

theorem suffix_step {base : List Operation} {m : Machine} (h : base <:+ m.pending)
    (hne : m.pending ≠ base) : base <:+ m.step.machine.pending := by
  cases hp : m.pending with
  | nil =>
    rw [hp] at h hne
    exact absurd (List.suffix_nil.mp h).symm hne
  | cons op pending =>
    rw [hp] at h hne
    have hs := (List.suffix_cons_iff.mp h).resolve_left hne.symm
    obtain ⟨effect, hb, ⟨cost, _, he⟩ | ⟨e, _, he⟩⟩ := step_branch hp
    · rw [he]
      exact hs.trans hb.suffix
    · rw [he]
      exact hs.trans hb.suffix

theorem pending_ne_of_suffix {base inner pending : List Operation} (hb : base <:+ inner)
    (hm : inner <:+ pending) (hne : pending ≠ inner) : pending ≠ base := by
  rintro rfl
  exact hne (hm.eq_of_length_le hb.length_le).symm

theorem Settles.trans {base inner : List Operation} {m : Machine}
    {middle ending : Except EvalError Machine} (hb : base <:+ inner) (hm : inner <:+ m.pending)
    (h : m.Settles inner middle) (hok : ∀ m', middle = .ok m' → m'.Settles base ending)
    (herror : ∀ e, middle = .error e → ending = .error e) : m.Settles base ending := by
  obtain ⟨steps, h⟩ := h
  fun_induction runTo inner steps m with
  | case1 steps m hp => exact hok m (Option.some.inj h).symm
  | case2 m hp => cases h
  | case3 m hp steps ho ih =>
    have hs : m.StepsTo m.step.machine := ⟨ho, rfl⟩
    exact hs.settles (pending_ne_of_suffix hb hm hp) (ih (suffix_step hm hp) h)
  | case4 m hp steps e he =>
    rw [herror e (Option.some.inj h).symm]
    exact settles_error (pending_ne_of_suffix hb hm hp) he

/-- A run that comes down to a base has come down to every part above it, and
goes on from there with no more steps than it had. -/
theorem runTo_split {base inner : List Operation} {m : Machine} {steps : Nat}
    {ending : Except EvalError Machine} (hb : base <:+ inner) (hm : inner <:+ m.pending)
    (h : m.runTo base steps = some ending) :
    ∃ middle, m.runTo inner steps = some middle ∧
      ∀ m', middle = .ok m' → ∃ k ≤ steps, m'.runTo base k = some ending := by
  fun_induction runTo base steps m with
  | case1 steps m hp =>
    have he : m.pending = inner := hm.eq_of_length_le (hp ▸ hb.length_le) |>.symm
    refine ⟨.ok m, runTo_base he steps, ?_⟩
    rintro m' ⟨rfl⟩
    exact ⟨steps, Nat.le_refl steps, (runTo_base hp steps).trans h⟩
  | case2 m hp => cases h
  | case3 m hp steps ho ih =>
    have hs : m.StepsTo m.step.machine := ⟨ho, rfl⟩
    by_cases he : m.pending = inner
    · refine ⟨.ok m, runTo_base he _, ?_⟩
      rintro m' ⟨rfl⟩
      exact ⟨steps + 1, Nat.le_refl _, (runTo_succ hp hs steps).trans h⟩
    · obtain ⟨middle, hmid, hrest⟩ := ih (suffix_step hm he) h
      refine ⟨middle, (runTo_succ he hs steps).trans hmid, ?_⟩
      intro m' hm'
      obtain ⟨k, hk, hrun⟩ := hrest m' hm'
      exact ⟨k, Nat.le_succ_of_le hk, hrun⟩
  | case4 m hp steps e he =>
    by_cases hi : m.pending = inner
    · refine ⟨.ok m, runTo_base hi _, ?_⟩
      rintro m' ⟨rfl⟩
      exact ⟨steps + 1, Nat.le_refl _, (runTo_error hp he steps).trans h⟩
    · refine ⟨.error e, runTo_error hi he steps, ?_⟩
      rintro m' ⟨⟩

theorem runFor_eq_runTo (m : Machine) (steps : Nat) :
    m.runFor steps = (m.runTo [] steps).map (Except.bind · result) := by
  fun_induction runTo [] steps m with
  | case1 steps m hp => exact runFor_finished hp steps
  | case2 m hp => exact runFor_zero hp
  | case3 m hp steps ho ih => exact (runFor_succ hp ⟨ho, rfl⟩ steps).trans ih
  | case4 m hp steps e he => exact runFor_error he steps

theorem returns_iff_settles {m : Machine} {response : Response} :
    m.Returns response ↔ ∃ ending, m.Settles [] ending ∧ Except.bind ending result = response := by
  constructor
  · rintro ⟨steps, h⟩
    rw [runFor_eq_runTo] at h
    obtain ⟨ending, he, hr⟩ := Option.map_eq_some_iff.mp h
    exact ⟨ending, ⟨steps, he⟩, hr⟩
  · rintro ⟨ending, ⟨steps, he⟩, rfl⟩
    refine ⟨steps, ?_⟩
    rw [runFor_eq_runTo, he]
    rfl

theorem Returns.unique {m : Machine} {response response' : Response} (h : m.Returns response)
    (h' : m.Returns response') : response = response' := by
  obtain ⟨ending, hs, rfl⟩ := returns_iff_settles.mp h
  obtain ⟨ending', hs', rfl⟩ := returns_iff_settles.mp h'
  rw [hs.unique hs']

theorem Returns.iff_eq {m : Machine} {response response' : Response} (h : m.Returns response) :
    m.Returns response' ↔ response' = response := by
  constructor
  · intro h'
    exact h'.unique h
  · rintro rfl
    exact h

end MeteredTree.Machine

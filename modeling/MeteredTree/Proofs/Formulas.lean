import MeteredTree.Operator.Arguments
import MeteredTree.Proofs.Charges

/-! Cost computations as formulas. A formula has a value in words, where plain
sums and products wrap around, and an exact one, where they do not; in both,
saturating ones stop at the largest cost. The two are the same if every plain
result is a word. -/

namespace MeteredTree

inductive Formula
  | given (n : Nat)
  | add (a b : Formula)
  | mul (a b : Formula)
  | satAdd (a b : Formula)
  | satMul (a b : Formula)
  | quotient (a : Formula) (divisor : Nat)

namespace Formula

def word : Formula → Cost
  | given n => UInt64.ofNat n
  | add a b => a.word + b.word
  | mul a b => a.word * b.word
  | satAdd a b => Cost.satAdd a.word b.word
  | satMul a b => Cost.satMul a.word b.word
  | quotient a divisor => a.word / UInt64.ofNat divisor

def exact : Formula → Nat
  | given n => n
  | add a b => a.exact + b.exact
  | mul a b => a.exact * b.exact
  | satAdd a b => min (a.exact + b.exact) 0xffffffffffffffff
  | satMul a b => min (a.exact * b.exact) 0xffffffffffffffff
  | quotient a divisor => a.exact / divisor

/-- Every number that goes in, and every plain sum and product on the way, is
less than 2 to the 64. -/
def Fits : Formula → Prop
  | given n => n < 0x10000000000000000
  | add a b => a.Fits ∧ b.Fits ∧ a.exact + b.exact < 0x10000000000000000
  | mul a b => a.Fits ∧ b.Fits ∧ a.exact * b.exact < 0x10000000000000000
  | satAdd a b => a.Fits ∧ b.Fits
  | satMul a b => a.Fits ∧ b.Fits
  | quotient a divisor => a.Fits ∧ divisor < 0x10000000000000000

def decideFits : (f : Formula) → Decidable f.Fits
  | given n => inferInstanceAs (Decidable (n < 0x10000000000000000))
  | add a b =>
    have := decideFits a
    have := decideFits b
    inferInstanceAs (Decidable (a.Fits ∧ b.Fits ∧ a.exact + b.exact < 0x10000000000000000))
  | mul a b =>
    have := decideFits a
    have := decideFits b
    inferInstanceAs (Decidable (a.Fits ∧ b.Fits ∧ a.exact * b.exact < 0x10000000000000000))
  | satAdd a b =>
    have := decideFits a
    have := decideFits b
    inferInstanceAs (Decidable (a.Fits ∧ b.Fits))
  | satMul a b =>
    have := decideFits a
    have := decideFits b
    inferInstanceAs (Decidable (a.Fits ∧ b.Fits))
  | quotient a divisor =>
    have := decideFits a
    inferInstanceAs (Decidable (a.Fits ∧ divisor < 0x10000000000000000))

instance (f : Formula) : Decidable f.Fits := decideFits f

theorem toNat_word {f : Formula} (h : f.Fits) : f.word.toNat = f.exact := by
  induction f with
  | given n => exact UInt64.toNat_ofNat_of_lt' h
  | add a b iha ihb =>
    obtain ⟨ha, hb, hlt⟩ := h
    rw [word, UInt64.toNat_add, iha ha, ihb hb]
    exact Nat.mod_eq_of_lt hlt
  | mul a b iha ihb =>
    obtain ⟨ha, hb, hlt⟩ := h
    rw [word, UInt64.toNat_mul, iha ha, ihb hb]
    exact Nat.mod_eq_of_lt hlt
  | satAdd a b iha ihb =>
    obtain ⟨ha, hb⟩ := h
    rw [word, Cost.satAdd, Cost.toNat_clamp, iha ha, ihb hb, exact]
  | satMul a b iha ihb =>
    obtain ⟨ha, hb⟩ := h
    rw [word, Cost.satMul, Cost.toNat_clamp, iha ha, ihb hb, exact]
  | quotient a divisor ih =>
    obtain ⟨ha, hd⟩ := h
    rw [word, UInt64.toNat_div, ih ha, UInt64.toNat_ofNat_of_lt' hd, exact]

theorem fits_zero : (given 0).Fits := by decide

/-- A price from the list. -/
def price (c : Cost) : Formula := given c.toNat

@[simp] theorem word_price (c : Cost) : (price c).word = c := UInt64.ofNat_toNat

@[simp] theorem exact_price (c : Cost) : (price c).exact = c.toNat := rfl

theorem fits_price (c : Cost) : (price c).Fits := c.toNat_lt

/-- A running total: numbers added to `start` one after the other. -/
def running (start : Formula) (ns : List Nat) : Formula :=
  ns.foldl (fun f n => f.add (given n)) start

theorem word_running {start : Formula} {k : Nat} (h : start.word = UInt64.ofNat k)
    (ns : List Nat) : (running start ns).word = UInt64.ofNat (ns.foldl (· + ·) k) := by
  induction ns generalizing start k with
  | nil => exact h
  | cons n ns ih =>
    have hnext : (start.add (given n)).word = UInt64.ofNat (k + n) := by
      rw [word, h, word, UInt64.ofNat_add]
    exact ih hnext

theorem exact_running (start : Formula) (ns : List Nat) :
    (running start ns).exact = ns.foldl (· + ·) start.exact := by
  induction ns generalizing start with
  | nil => rfl
  | cons n ns ih => exact ih (start.add (given n))

theorem le_foldl_add (ns : List Nat) (k : Nat) : k ≤ ns.foldl (· + ·) k := by
  induction ns generalizing k with
  | nil => exact Nat.le_refl k
  | cons n ns ih => exact Nat.le_trans (Nat.le_add_right k n) (ih (k + n))

theorem foldl_add_le {ns : List Nat} {bound : Nat} (h : ∀ n ∈ ns, n ≤ bound) (k : Nat) :
    ns.foldl (· + ·) k ≤ k + ns.length * bound := by
  induction ns generalizing k with
  | nil => simp
  | cons n ns ih =>
    have hn := h n List.mem_cons_self
    have hns := ih (fun m hm => h m (List.mem_cons_of_mem n hm)) (k + n)
    rw [List.foldl_cons, List.length_cons, Nat.succ_mul]
    omega

/-- A running total fits if its last value does. -/
theorem fits_running {start : Formula} (hstart : start.Fits) {ns : List Nat}
    (h : ns.foldl (· + ·) start.exact < 0x10000000000000000) : (running start ns).Fits := by
  induction ns generalizing start with
  | nil => exact hstart
  | cons n ns ih =>
    have hle := le_foldl_add ns (start.exact + n)
    have hn : (given n).Fits := by
      change n < _
      rw [List.foldl_cons] at h
      omega
    have hsum : start.exact + n < 0x10000000000000000 := Nat.lt_of_le_of_lt hle h
    exact ih ⟨hstart, hn, hsum⟩ h

def total (ns : List Nat) : Formula := running (given 0) ns

theorem word_total (ns : List Nat) : (total ns).word = UInt64.ofNat (ns.foldl (· + ·) 0) :=
  word_running rfl ns

theorem exact_total (ns : List Nat) : (total ns).exact = ns.foldl (· + ·) 0 :=
  exact_running (given 0) ns

theorem fits_total {ns : List Nat} (h : ns.foldl (· + ·) 0 < 0x10000000000000000) :
    (total ns).Fits :=
  fits_running fits_zero h

/-- Counting up by one for each element. -/
def count {α : Type} (xs : List α) : Formula := total (xs.map fun _ => 1)

theorem foldl_add_const {α : Type} (xs : List α) (c k : Nat) :
    (xs.map fun _ => c).foldl (· + ·) k = k + xs.length * c := by
  induction xs generalizing k with
  | nil => simp
  | cons x xs ih =>
    rw [List.map_cons, List.foldl_cons, ih, List.length_cons, Nat.succ_mul]
    omega

theorem word_count {α : Type} (xs : List α) : (count xs).word = UInt64.ofNat xs.length := by
  rw [count, word_total, foldl_add_const, Nat.zero_add, Nat.mul_one]

theorem fits_count {α : Type} {xs : List α} (h : xs.length < 0x10000000000000000) :
    (count xs).Fits := by
  apply fits_total
  rw [foldl_add_const]
  omega

def tariff (t : Tariff) (args bytes : Formula) : Formula :=
  ((price t.base).add (args.mul (price t.perArg))).add (bytes.mul (price t.perByte))

theorem word_tariff {t : Tariff} {args bytes : Formula} {n k : Nat}
    (hn : args.word = UInt64.ofNat n) (hk : bytes.word = UInt64.ofNat k) :
    (tariff t args bytes).word = t.plain n k := by
  simp only [tariff, word, word_price, hn, hk, Tariff.plain]

theorem fits_tariff {t : Tariff} {args bytes : Formula} (hargs : args.Fits) (hbytes : bytes.Fits)
    (h : (tariff t args bytes).exact < 0x10000000000000000) : (tariff t args bytes).Fits := by
  simp only [tariff, exact, exact_price] at h
  have hargsum : t.base.toNat + args.exact * t.perArg.toNat < 0x10000000000000000 := by omega
  have hargcost : args.exact * t.perArg.toNat < 0x10000000000000000 := by omega
  have hbytecost : bytes.exact * t.perByte.toNat < 0x10000000000000000 := by omega
  exact ⟨⟨fits_price _, ⟨hargs, fits_price _, hargcost⟩, hargsum⟩,
    ⟨hbytes, fits_price _, hbytecost⟩, h⟩

def satTariff (t : Tariff) (args bytes : Formula) : Formula :=
  ((price t.base).satAdd ((price t.perArg).satMul args)).satAdd ((price t.perByte).satMul bytes)

theorem word_satTariff (t : Tariff) (args bytes : Formula) :
    (satTariff t args bytes).word = t.saturating args.word bytes.word := by
  simp only [satTariff, word, word_price, Tariff.saturating]

theorem fits_satTariff (t : Tariff) {args bytes : Formula} (hargs : args.Fits)
    (hbytes : bytes.Fits) : (satTariff t args bytes).Fits :=
  ⟨⟨fits_price _, fits_price _, hargs⟩, fits_price _, hbytes⟩

/-- The surcharge for a new atom of so many bytes. -/
def allocation (length : Nat) : Formula :=
  (given length).satMul (price Price.allocatedByte)

theorem word_allocation (length : Nat) : (allocation length).word = Price.allocation length := by
  simp only [allocation, word, word_price, Price.allocation]

theorem le_exact_allocation (length : Nat) :
    min (10 * length) 0xffffffffffffffff ≤ (allocation length).exact := by
  have hbyte : Price.allocatedByte.toNat = 10 := rfl
  simp only [allocation, exact, exact_price, hbyte]
  omega

theorem fits_allocation {length : Nat} (h : length < 0x10000000000000000) :
    (allocation length).Fits :=
  ⟨h, fits_price _⟩

theorem exact_allocation_le (length : Nat) : (allocation length).exact ≤ 10 * length := by
  have hbyte : Price.allocatedByte.toNat = 10 := rfl
  simp only [allocation, exact, exact_price, hbyte]
  omega

def newAtom (cost : Formula) (length : Nat) : Formula :=
  cost.satAdd (allocation length)

theorem cost_newAtom {f : Formula} {cost : Cost} (h : f.word = cost) (bytes : Bytes) :
    (Reduction.newAtom cost bytes).cost = (f.newAtom bytes.length).word := by
  rw [newAtom, word, word_allocation, h, Reduction.newAtom]

theorem le_exact_newAtom (cost : Formula) (length : Nat) :
    min (10 * length) 0xffffffffffffffff ≤ (cost.newAtom length).exact := by
  have hle := le_exact_allocation length
  simp only [newAtom, exact]
  omega

theorem fits_newAtom {cost : Formula} {length : Nat} (hcost : cost.Fits)
    (h : length < 0x10000000000000000) : (cost.newAtom length).Fits :=
  ⟨hcost, fits_allocation h⟩

def multiplication (vs rs : Formula) : Formula :=
  ((price Price.multiplyStep).satAdd ((rs.satAdd vs).satMul (price Price.multiplyByte))).satAdd
    ((rs.satMul vs).quotient Price.multiplySquare.toNat)

theorem word_multiplication (vs rs : Formula) :
    (multiplication vs rs).word = Price.multiplication vs.word rs.word := by
  simp only [multiplication, word, word_price, UInt64.ofNat_toNat, Price.multiplication]

theorem fits_multiplication {vs rs : Formula} (hvs : vs.Fits) (hrs : rs.Fits) :
    (multiplication vs rs).Fits :=
  ⟨⟨fits_price _, ⟨hrs, hvs⟩, fits_price _⟩, ⟨hrs, hvs⟩, UInt64.toNat_lt _⟩

end Formula

end MeteredTree

/-! Costs are 64-bit words. Sums and products that an input can drive up
stop at the largest word instead of wrapping around. -/

namespace MeteredTree

abbrev Cost := UInt64

namespace Cost

def max : Cost := 0xffffffffffffffff

/-- The cost `n`, or the largest one if `n` does not fit. -/
def clamp (n : Nat) : Cost :=
  if n < 0x10000000000000000 then UInt64.ofNat n else max

def satAdd (a b : Cost) : Cost :=
  clamp (a.toNat + b.toNat)

def satMul (a b : Cost) : Cost :=
  clamp (a.toNat * b.toNat)

end Cost

/-- A price made of a fixed part, a part for each argument and a part for
each byte of the arguments. -/
structure Tariff where
  base : Cost
  perArg : Cost
  perByte : Cost
  deriving DecidableEq

namespace Tariff

/-- The price in word arithmetic. -/
def plain (t : Tariff) (args bytes : Nat) : Cost :=
  t.base + UInt64.ofNat args * t.perArg + UInt64.ofNat bytes * t.perByte

/-- The price with every sum and product stopped at the largest cost. -/
def saturating (t : Tariff) (args bytes : Cost) : Cost :=
  Cost.satAdd (Cost.satAdd t.base (Cost.satMul t.perArg args)) (Cost.satMul t.perByte bytes)

end Tariff

end MeteredTree

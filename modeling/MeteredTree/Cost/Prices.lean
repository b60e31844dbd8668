import MeteredTree.Cost

/-! The price list. These numbers are part of the protocol: two evaluators
agree on what a program costs only if they agree on every one of them. -/

namespace MeteredTree.Price

def choose : Cost := 33
def cons : Cost := 50
def first : Cost := 30
def rest : Cost := 30
def isPair : Cost := 19
def substr : Cost := 1

/-- Every byte of an atom that an operator makes. -/
def allocatedByte : Cost := 10

def arithmetic : Tariff := ⟨99, 320, 3⟩
def logic : Tariff := ⟨100, 264, 3⟩
def greaterBytes : Tariff := ⟨117, 0, 1⟩
def equal : Tariff := ⟨117, 0, 1⟩
def greater : Tariff := ⟨498, 0, 2⟩
def divide : Tariff := ⟨988, 0, 4⟩
def divmod : Tariff := ⟨1116, 0, 6⟩
def sha256 : Tariff := ⟨87, 134, 2⟩
def pointAdd : Tariff := ⟨101094, 1343980, 0⟩
def publicKey : Tariff := ⟨1325730, 0, 38⟩
def strlen : Tariff := ⟨173, 0, 1⟩
def concat : Tariff := ⟨142, 135, 3⟩
def boolean : Tariff := ⟨200, 300, 0⟩
def arithmeticShift : Tariff := ⟨596, 0, 3⟩
def logicalShift : Tariff := ⟨277, 0, 3⟩
def lognot : Tariff := ⟨331, 0, 3⟩

def multiply : Cost := 92

def multiplyStep : Cost := 885

/-- Each byte of the two factors of a multiplication. -/
def multiplyByte : Cost := 6

/-- So many byte pairs of the two factors cost one unit. -/
def multiplySquare : Cost := 128

def path : Cost := 40
def pathLeg : Cost := 4
def pathZeroByte : Cost := 4

/-- Entering a program given as a value. -/
def apply : Cost := 90

def quote : Cost := 20

/-- Scheduling the operands of an operator. -/
def operands : Cost := 1

/-- An unknown operator of constant shape. -/
def unknown : Cost := 1

/-- All that a block of the main network may cost. -/
def block : Cost := 11000000000

/-- The surcharge for a new atom of `length` bytes. -/
def allocation (length : Nat) : Cost :=
  Cost.satMul (UInt64.ofNat length) allocatedByte

/-- One multiplication of factors of `vs` and `rs` bytes. -/
def multiplication (vs rs : Cost) : Cost :=
  Cost.satAdd (Cost.satAdd multiplyStep (Cost.satMul (Cost.satAdd rs vs) multiplyByte))
    (Cost.satMul rs vs / multiplySquare)

end MeteredTree.Price

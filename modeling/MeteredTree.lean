import MeteredTree.Bytes
import MeteredTree.CommandLine
import MeteredTree.CommandLine.HexText
import MeteredTree.CommandLine.Options
import MeteredTree.Config
import MeteredTree.Cost
import MeteredTree.Cost.Prices
import MeteredTree.Curve.Compressed
import MeteredTree.Curve.Field
import MeteredTree.Curve.Group
import MeteredTree.Curve.Jacobian
import MeteredTree.Curve.Point
import MeteredTree.Error
import MeteredTree.Hash.Sha256
import MeteredTree.Hex
import MeteredTree.Integer
import MeteredTree.Machine
import MeteredTree.Machine.Run
import MeteredTree.Main
import MeteredTree.Meter
import MeteredTree.Node
import MeteredTree.Operator.Arguments
import MeteredTree.Operator.Arithmetic
import MeteredTree.Operator.Bitwise
import MeteredTree.Operator.Points
import MeteredTree.Operator.Primitive
import MeteredTree.Operator.Strings
import MeteredTree.Operator.Table
import MeteredTree.Operator.Trees
import MeteredTree.Operator.Unknown
import MeteredTree.Path
import MeteredTree.Proofs.Charges
import MeteredTree.Proofs.Operations
import MeteredTree.Proofs.Runs
import MeteredTree.Wire.Decode
import MeteredTree.Wire.Encode
import MeteredTree.Wire.Scan
import MeteredTree.Wire.Size
import MeteredTree.Proofs.Settling
import MeteredTree.Proofs.Refinement
import MeteredTree.Proofs.Balance
import MeteredTree.Proofs.Budget
import MeteredTree.Proofs.StackTyping
import MeteredTree.Proofs.Pace
import MeteredTree.Proofs.LengthFields
import MeteredTree.Proofs.Descent
import MeteredTree.Proofs.Grammar
import MeteredTree.Proofs.Encoding
import MeteredTree.Proofs.Forms
import MeteredTree.Proofs.Scanning
import MeteredTree.Proofs.Restriction
import MeteredTree.Proofs.Outcomes
import MeteredTree.Proofs.Formulas
import MeteredTree.Proofs.Dialects
import MeteredTree.Proofs.Pricing
import MeteredTree.Proofs.ExactRuns
import MeteredTree.Proofs.AtomSizes
import MeteredTree.Proofs.Magnitudes
import MeteredTree.Proofs.Affordable
import MeteredTree.Proofs.Overflow
import MeteredTree.Proofs.Capability
import MeteredTree.Proofs.Accounting
import MeteredTree.Proofs.BinaryWalk
import MeteredTree.Proofs.FullCosts
import MeteredTree.Proofs.TwosComplement
import MeteredTree.Proofs.Acceptance
import MeteredTree.Proofs.Estimates
import MeteredTree.Proofs.ValueOnly
import MeteredTree.Proofs.FloorDivision
import MeteredTree.Proofs.BitByBit
import MeteredTree.Proofs.Shifts
import MeteredTree.Proofs.Slices
import MeteredTree.Proofs.ArgumentOrder
import MeteredTree.Proofs.Curve.GroupLaw
import MeteredTree.Proofs.Exponents
import MeteredTree.Proofs.Truncation
import MeteredTree.Proofs.Curve.UniqueForms
import MeteredTree.Proofs.ChargeSequences
import MeteredTree.Proofs.Comparison

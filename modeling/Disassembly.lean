import Disassembly.FieldCode
import Disassembly.Instruction.Equality
import Disassembly.Main
import Disassembly.Proofs.Leb128.Form
import Disassembly.Proofs.Grammar.Derivation
import Disassembly.Proofs.Grammar.Acceptance
import Disassembly.Proofs.Conformance.Decoded
import Disassembly.Proofs.Failure
import Disassembly.Proofs.Table.Rows
import Disassembly.Proofs.Conformance.Access
import Disassembly.Proofs.Leb128.Writers
import Disassembly.Proofs.Encoding.Writer
import Disassembly.Proofs.Encoding.RoundTrip
import Disassembly.Proofs.Delimiting
import Disassembly.Proofs.Table.Building
import Disassembly.Proofs.Table.Lookup
import Disassembly.Proofs.Table.Describing
import Disassembly.Proofs.Table.Equivalence
import Disassembly.Proofs.Table.Legality
import Disassembly.Proofs.Table.ReadBack
import Disassembly.Proofs.Comparison.Readers
import Disassembly.Proofs.Comparison.Blocks
import Disassembly.Proofs.Nesting.Height
import Disassembly.Proofs.Nesting.Limit
import Disassembly.Proofs.Nesting.Composition
import Disassembly.Proofs.Sources.Interchange
import Disassembly.Proofs.Accuracy
import Disassembly.Proofs.Table.Rendering
import Disassembly.Proofs.Completion.Blocks
import Disassembly.Proofs.Watching.Faithful
import Disassembly.Proofs.Table.Extension
import Disassembly.Proofs.Table.RowOrder
import Disassembly.Proofs.CommandLine.Verbosity
import Disassembly.Proofs.Resources
import Disassembly.Proofs.Leb128.Reading
import Disassembly.Proofs.Appending
import Disassembly.Proofs.Leb128.Widths
import Disassembly.Proofs.Encoding.Normalizing
import Disassembly.Proofs.Printing.Faults
import Disassembly.Proofs.Printing.Unambiguous
import Disassembly.Proofs.Text.Numbers
import Disassembly.Proofs.CommandLine.Groups
import Disassembly.Proofs.Equality
import Disassembly.Proofs.Text.Delivery
import Disassembly.Proofs.Table.Interruption
import Disassembly.Proofs.FieldCode
import Disassembly.Proofs.Table.Containers
import Disassembly.Proofs.Displacement

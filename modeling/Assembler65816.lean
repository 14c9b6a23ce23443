import Assembler65816.Text.Basic
import Assembler65816.Text.Utf8
import Assembler65816.Text.Blank
import Assembler65816.Text.Numeral
import Assembler65816.Text.Case
import Assembler65816.Text.Quoted
import Assembler65816.Field
import Assembler65816.Machine.Mnemonic
import Assembler65816.Expression.Reduce
import Assembler65816.Expression.Reader
import Assembler65816.Operand.Encoding
import Assembler65816.Operand.Reader
import Assembler65816.Statement.Reader
import Assembler65816.Source.Basic
import Assembler65816.Assembly.Basic
import Assembler65816.Main
import Assembler65816.Proofs.Assembly.Run
import Assembler65816.Proofs.Assembly.Sections
import Assembler65816.Proofs.Expression.Folding
import Assembler65816.Proofs.Source.Items
import Assembler65816.Proofs.Chunk.Layout
import Assembler65816.Proofs.Operand.Encoding
import Assembler65816.Proofs.Statement.Parts
import Assembler65816.Proofs.Assembly.TwoPass
import Assembler65816.Proofs.Expression.Mentions
import Assembler65816.Proofs.Statement.Mentions
import Assembler65816.Proofs.Label.Definitions
import Assembler65816.Proofs.Label.References
import Assembler65816.Proofs.Machine.Opcodes
import Assembler65816.Proofs.Disassembly.RoundTrip
import Assembler65816.Proofs.Assembly.ControlFlow
import Assembler65816.Proofs.Text.Blank
import Assembler65816.Proofs.Source.Line
import Assembler65816.Proofs.Source.Lines
import Assembler65816.Proofs.Source.Erasure
import Assembler65816.Proofs.Assembly.Isolation
import Assembler65816.Proofs.Text.Numeral
import Assembler65816.Proofs.Operand.Shapes
import Assembler65816.Proofs.Source.Instruction
import Assembler65816.Proofs.Disassembly.Reassembly
import Assembler65816.Proofs.Chunk.Renaming
import Assembler65816.Proofs.Statement.Renaming
import Assembler65816.Proofs.Assembly.Independence
import Assembler65816.Proofs.Expression.Renaming
import Assembler65816.Proofs.Assembly.Reports
import Assembler65816.Proofs.Assembly.Kinds
import Assembler65816.Proofs.Statement.OpenFields
import Assembler65816.Proofs.Assembly.Consistency
import Assembler65816.Proofs.Assembly.Linkage
import Assembler65816.Proofs.Assembly.Attributes
import Assembler65816.Proofs.Chunk.Patching
import Assembler65816.Proofs.Expression.Evaluation
import Assembler65816.Proofs.Expression.Staging
import Assembler65816.Proofs.Expression.Rendering
import Assembler65816.Proofs.Disassembly.Lengths
import Assembler65816.Proofs.Disassembly.Branches
import Assembler65816.Proofs.Operand.Inference
import Assembler65816.Proofs.Expression.Extent
import Assembler65816.Proofs.Operand.Forms
import Assembler65816.Proofs.Disassembly.Tiling
import Assembler65816.Proofs.Statement.Splitting
import Assembler65816.Proofs.Statement.Values
import Assembler65816.Proofs.Source.Literal
import Assembler65816.Proofs.Expression.Listing
import Assembler65816.Proofs.Expression.Holes
import Assembler65816.Proofs.Operand.Constants
import Assembler65816.Proofs.Source.Directive
import Assembler65816.Proofs.Statement.Strings
import Assembler65816.Proofs.Machine.Fields
import Assembler65816.Proofs.Scenario.Fences
import Assembler65816.Proofs.Assembly.Containment
import Assembler65816.Proofs.Label.Calls
import Assembler65816.Proofs.Expression.Cursor
import Assembler65816.Proofs.Expression.Descent
